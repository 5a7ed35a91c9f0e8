import SymbolicCalculus.Suggestion

/-! Words made out of one another by edits of one character each. The distance between two words, as its table gives
it entry by entry, is the least number of edits that make one into the other. -/
namespace SymbolicCalculus

section edits
variable {κ : Type}

inductive Edit : List κ → List κ → Prop where
  | insertion (front : List κ) (c : κ) (back : List κ) : Edit (front ++ back) (front ++ c :: back)
  | deletion (front : List κ) (c : κ) (back : List κ) : Edit (front ++ c :: back) (front ++ back)
  | replacement (front : List κ) (c d : κ) (back : List κ) : Edit (front ++ c :: back) (front ++ d :: back)

inductive Edits : Nat → List κ → List κ → Prop where
  | none {word} : Edits 0 word word
  | more {n word mid other} (edits : Edits n word mid) (edit : Edit mid other) : Edits (n + 1) word other

variable {m n : Nat} {word mid other : List κ} {a b : κ}

theorem editUndone (edit : Edit word other) : Edit other word := by
  cases edit with
  | insertion front c back => exact .deletion front c back
  | deletion front c back => exact .insertion front c back
  | replacement front c d back => exact .replacement front d c back

theorem editBehind (a : κ) (edit : Edit word other) : Edit (a :: word) (a :: other) := by
  cases edit with
  | insertion front c back => exact .insertion (a :: front) c back
  | deletion front c back => exact .deletion (a :: front) c back
  | replacement front c d back => exact .replacement (a :: front) c d back

theorem editFirst (edit : Edit (a :: word) (b :: other)) :
    (a = b ∧ Edit word other) ∨ other = a :: word ∨ word = b :: other ∨ word = other := by
  generalize before : a :: word = whole, after : b :: other = made at edit
  cases edit with
  | insertion front c back =>
    rcases front with _ | ⟨_,front⟩ <;> cases before <;> cases after
    · exact Or.inr (Or.inl rfl)
    · exact Or.inl ⟨rfl,.insertion front c back⟩
  | deletion front c back =>
    rcases front with _ | ⟨_,front⟩ <;> cases before <;> cases after
    · exact Or.inr (Or.inr (Or.inl rfl))
    · exact Or.inl ⟨rfl,.deletion front c back⟩
  | replacement front c d back =>
    rcases front with _ | ⟨_,front⟩ <;> cases before <;> cases after
    · exact Or.inr (Or.inr (Or.inr rfl))
    · exact Or.inl ⟨rfl,.replacement front c d back⟩

theorem editEmpty : Edit [] other ↔ other.length = 1 := by
  constructor
  · intro edit
    generalize before : ([] : List κ) = whole at edit
    cases edit with
    | insertion front c back =>
      obtain ⟨rfl,rfl⟩ := List.append_eq_nil_iff.mp before.symm
      rfl
    | deletion front c back | replacement front c d back => simp at before
  · intro single
    obtain ⟨c,rfl⟩ := List.length_eq_one_iff.mp single
    exact .insertion [] c []

theorem editsJoined (first : Edits m word mid) (second : Edits n mid other) : Edits (m + n) word other := by
  induction second with
  | none => exact first
  | more _ edit ih => exact .more (ih first) edit

theorem editsUndone (edits : Edits n word other) : Edits n other word := by
  induction edits with
  | none => exact .none
  | @more n _ _ _ _ edit ih => exact Nat.add_comm 1 n ▸ editsJoined (.more .none (editUndone edit)) ih

theorem editsBehind (a : κ) (edits : Edits n word other) : Edits n (a :: word) (a :: other) := by
  induction edits with
  | none => exact .none
  | more _ edit ih => exact .more ih (editBehind a edit)

theorem editsBuilt : (word : List κ) → Edits word.length [] word
  | [] => .none
  | a :: word => .more (editsBuilt word) (.insertion [] a word)

theorem editsLeast (first : Edits m word other) (second : Edits n word other) : Edits (min m n) word other := by
  rcases Nat.le_total m n with fewer | fewer
  · exact (Nat.min_eq_left fewer).symm ▸ first
  · exact (Nat.min_eq_right fewer).symm ▸ second

theorem editsSingle : (∃ m ≤ 1, Edits m word other) ↔ word = other ∨ Edit word other := by
  constructor
  · rintro ⟨_,few,edits⟩
    rcases edits with _ | ⟨edits,edit⟩
    · exact Or.inl rfl
    · rcases edits with _ | _
      · exact Or.inr edit
      · omega
  · rintro (rfl | edit)
    · exact ⟨0,by omega,.none⟩
    · exact ⟨1,Nat.le_refl 1,.more .none edit⟩

end edits

section distances
variable {κ : Type} [DecidableEq κ]

/- How the table of distances is filled: the border counts characters, and an entry inside comes from the three
beside it. -/
structure Tabled (distance : List κ → List κ → Nat) : Prop where
  built : ∀ other, distance [] other = other.length
  erased : ∀ word, distance word [] = word.length
  entry : ∀ a word b other, distance (a :: word) (b :: other) =
    min (min (distance (a :: word) other + 1) (distance word (b :: other) + 1))
      (distance word other + if a = b then 0 else 1)

variable {distance : List κ → List κ → Nat}

theorem tableReached (table : Tabled distance) (word other : List κ) : Edits (distance word other) word other := by
  induction word generalizing other with
  | nil => exact table.built other ▸ editsBuilt other
  | cons a word ihWord =>
    induction other with
    | nil => exact table.erased (a :: word) ▸ editsUndone (editsBuilt (a :: word))
    | cons b other ihOther =>
      have inserted : Edits (distance (a :: word) other + 1) (a :: word) (b :: other) :=
        .more ihOther (.insertion [] b other)
      have deleted : Edits (distance word (b :: other) + 1) (a :: word) (b :: other) :=
        Nat.add_comm 1 _ ▸ editsJoined (.more .none (.deletion [] a word)) (ihWord (b :: other))
      have kept : Edits (distance word other + if a = b then 0 else 1) (a :: word) (b :: other) := by
        have behind := editsBehind a (ihWord other)
        split
        · rename_i same
          exact same ▸ behind
        · exact .more behind (.replacement [] a b other)
      rw [table.entry]
      exact editsLeast (editsLeast inserted deleted) kept

theorem tableBeside (table : Tabled distance) (a b : κ) (word other : List κ) :
    distance (a :: word) (b :: other) ≤ distance (a :: word) other + 1 ∧
    distance (a :: word) (b :: other) ≤ distance word (b :: other) + 1 ∧
    distance (a :: word) (b :: other) ≤ distance word other + 1 := by
  have entry := table.entry a word b other
  split at entry <;> omega

theorem tableSame (table : Tabled distance) (word : List κ) : distance word word = 0 := by
  induction word with
  | nil => exact table.built []
  | cons a word ih =>
    rw [table.entry,if_pos rfl,ih]
    exact Nat.min_zero _

theorem tableLonger (table : Tabled distance) (a : κ) (word other : List κ) :
    distance (a :: word) other ≤ distance word other + 1 := by
  cases other with
  | nil => simp [table.erased]
  | cons b other => exact (tableBeside table a b word other).2.1

theorem tableBehind (table : Tabled distance) (c : κ) {mid other : List κ}
    (close : ∀ word, distance word other ≤ distance word mid + 1) (word : List κ) :
    distance word (c :: other) ≤ distance word (c :: mid) + 1 := by
  induction word with
  | nil =>
    have outer := close []
    simp only [table.built,List.length_cons] at outer ⊢
    omega
  | cons a word ih =>
    have outer := close (a :: word)
    have inner := close word
    rw [table.entry,table.entry]
    omega

theorem tableFurther (table : Tabled distance) (front : List κ) {mid other : List κ}
    (close : ∀ word, distance word other ≤ distance word mid + 1) :
    ∀ word, distance word (front ++ other) ≤ distance word (front ++ mid) + 1 := by
  induction front with
  | nil => exact close
  | cons c front ih => exact tableBehind table c ih

theorem tableEdit (table : Tabled distance) {mid other : List κ} (edit : Edit mid other) (word : List κ) :
    distance word other ≤ distance word mid + 1 := by
  cases edit with
  | insertion front c back =>
    refine tableFurther table front (fun word => ?_) word
    cases word with
    | nil => simp [table.built]
    | cons a word => exact (tableBeside table a c word back).1
  | deletion front c back =>
    refine tableFurther table front (fun word => ?_) word
    -- The nearest way to the longer word may pass by its first character late, so the other word is followed too.
    induction word with
    | nil =>
      simp only [table.built,List.length_cons]
      omega
    | cons a word ih =>
      have longer := tableLonger table a word back
      rw [table.entry]
      omega
  | replacement front c d back =>
    refine tableFurther table front (fun word => ?_) word
    induction word with
    | nil =>
      simp only [table.built,List.length_cons]
      omega
    | cons a word ih =>
      have beside := tableBeside table a d word back
      rw [table.entry a word c back]
      omega

theorem tableLeast (table : Tabled distance) {n : Nat} {word other : List κ} (edits : Edits n word other) :
    distance word other ≤ n := by
  induction edits with
  | none => exact Nat.le_of_eq (tableSame table _)
  | more _ edit ih => exact Nat.le_trans (tableEdit table edit _) (Nat.succ_le_succ ih)

theorem tableExact (table : Tabled distance) {n : Nat} {word other : List κ} :
    distance word other ≤ n ↔ ∃ m ≤ n, Edits m word other := by
  constructor
  · intro near
    exact ⟨_,near,tableReached table word other⟩
  · rintro ⟨m,few,edits⟩
    exact Nat.le_trans (tableLeast table edits) few

def rowAbove (a : κ) (below : List κ → Nat) (border : Nat) : List κ → Nat
  | [] => border
  | b :: other => min (min (rowAbove a below border other + 1) (below (b :: other) + 1))
      (below other + if a = b then 0 else 1)

def tableDistance : List κ → List κ → Nat
  | [] => List.length
  | a :: word => rowAbove a (tableDistance word) (word.length + 1)

theorem tableFilled : Tabled (tableDistance : List κ → List κ → Nat) where
  built _ := rfl
  erased word := by cases word <;> rfl
  entry _ _ _ _ := rfl

theorem withinNear (word other : List Char) : withinOneEdit word other = true ↔ word = other ∨ Edit word other := by
  induction word, other using withinOneEdit.induct with
  | case1 other =>
    rw [withinOneEdit,editEmpty,decide_eq_true_iff,@eq_comm _ [],← List.length_eq_zero_iff]
    omega
  | case2 word filled =>
    have single : Edit word [] ↔ word.length = 1 :=
      ⟨fun edit => editEmpty.mp (editUndone edit),fun length => editUndone (editEmpty.mpr length)⟩
    rw [withinOneEdit,decide_eq_true_iff,single,← List.length_eq_zero_iff]
    · omega
    · exact filled
  | case3 word a other ih =>
    rw [withinOneEdit,if_pos rfl,ih,List.cons_inj_right]
    refine ⟨Or.imp_right (editBehind a),fun near => ?_⟩
    rcases near with same | edit
    · exact Or.inl same
    · rcases editFirst edit with ⟨_,inner⟩ | rfl | rfl | same
      · exact Or.inr inner
      · exact Or.inr (.insertion [] a word)
      · exact Or.inr (.deletion [] a other)
      · exact Or.inl same
  | case4 a word b other apart =>
    rw [withinOneEdit,if_neg apart]
    simp only [Bool.or_eq_true,beq_iff_eq,List.cons.injEq,apart,false_and,false_or]
    constructor
    · rintro ((rfl | rfl) | rfl)
      · exact .replacement [] a b word
      · exact .deletion [] a (b :: other)
      · exact .insertion [] b (a :: word)
    · intro edit
      rcases editFirst edit with ⟨same,_⟩ | rfl | rfl | rfl
      · exact absurd same apart
      · exact Or.inr rfl
      · exact Or.inl (Or.inr rfl)
      · exact Or.inl (Or.inl rfl)

end distances
end SymbolicCalculus
