import Mathlib.Data.List.Nodup
import SymbolicCalculus.Proofs.Assignments
import SymbolicCalculus.Proofs.Bytes

/-! Bindings in the order of their entries: each bound name is there once, and names that can be set in a dialogue
follow each other as their bytes do. -/
namespace SymbolicCalculus

section entries
variable {α : Type}

theorem valueSingle {entries : List (String × α)} {name : String}
    (single : ∀ a b, (name,a) ∈ entries → (name,b) ∈ entries → a = b) (value : α) :
    (name,value) ∈ entries ↔ valueIn entries name = some value := by
  have held {entry : String × α} (found : entries.find? (fun entry => entry.1 == name) = some entry) :
      (name,entry.2) ∈ entries := by
    have named : entry.1 = name := by simpa using List.find?_some found
    exact named ▸ List.mem_of_find?_eq_some found
  unfold valueIn
  constructor
  · intro member
    have some : (entries.find? (fun entry => entry.1 == name)).isSome := List.find?_isSome.mpr ⟨_,member,beq_self_eq_true name⟩
    obtain ⟨entry,found⟩ := Option.isSome_iff_exists.mp some
    rw [found,Option.map_some,single entry.2 value (held found) member]
  · intro looked
    obtain ⟨entry,found,same⟩ := Option.map_eq_some_iff.mp looked
    exact same ▸ held found

theorem increasingKeys {entries : List (String × α)} (ordered : Increasing entries) :
    (entries.map Prod.fst).Nodup := by
  refine List.pairwise_map.mpr (List.Pairwise.imp ?_ ordered)
  intro a b below same
  exact String.lt_irrefl _ (same ▸ below)

theorem entryOnce {entries : List (String × α)} (ordered : Increasing entries) {name : String} {a b : α}
    (first : (name,a) ∈ entries) (second : (name,b) ∈ entries) : a = b := by
  have keys := increasingKeys ordered
  exact congrArg Prod.snd (List.inj_on_of_nodup_map keys first second rfl)

theorem entryBound (b : Bindings α) (name : String) (value : α) :
    (name,value) ∈ b.entries ↔ b.value? name = some value := valueSingle (fun _ _ => entryOnce b.ordered) value

theorem ofListSame {b : Bindings α} {entries : List (String × α)} (same : ∀ entry, entry ∈ entries ↔ entry ∈ b.entries) :
    Bindings.ofList entries = b := by
  have alike (name : String) (value : α) :
      (Bindings.ofList entries).value? name = some value ↔ b.value? name = some value := by
    have once (v w : α) (first : (name,v) ∈ entries.reverse) (second : (name,w) ∈ entries.reverse) : v = w := by
      rw [List.mem_reverse,same] at first second
      exact entryOnce b.ordered first second
    rw [Bindings.valueOfList,← valueSingle once,List.mem_reverse,same,entryBound]
  have apart (c : Bindings α) : c.entries.Nodup := (increasingKeys c.ordered).of_map
  have members (entry : String × α) : entry ∈ (Bindings.ofList entries).entries ↔ entry ∈ b.entries := by
    obtain ⟨name,value⟩ := entry
    rw [entryBound,entryBound,alike]
  have perm := (List.perm_ext_iff_of_nodup (apart _) (apart b)).mpr members
  have whole : (Bindings.ofList entries).entries = b.entries := perm.eq_of_pairwise
    (fun _ _ _ _ below above => absurd (String.lt_trans below above) (String.lt_irrefl _))
    (Bindings.ofList entries).ordered b.ordered
  obtain ⟨rows,ordered⟩ := b
  generalize Bindings.ofList entries = a at whole
  cases a
  cases whole
  rfl

end entries

section order

theorem asciiSize {c : Char} (ascii : c.toNat < 128) : c.utf8Size = 1 := by
  rw [Char.utf8Size_eq_one_iff,UInt32.le_iff_toNat_le]
  exact Nat.le_of_lt_succ ascii

theorem asciiByte {c d : Char} (first : c.toNat < 128) (second : d.toNat < 128) (below : c < d) :
    c.val.toUInt8 < d.val.toUInt8 := by
  have order : c.toNat < d.toNat := below
  rw [UInt8.lt_iff_toNat_lt,UInt32.toNat_toUInt8,UInt32.toNat_toUInt8]
  simp only [Char.toNat] at first second order
  omega

theorem asciiBytes {cs : List Char} (ascii : ∀ c ∈ cs, c.toNat < 128) :
    bytes (String.ofList cs) = cs.map (fun c => c.val.toUInt8) := by
  rw [bytesOfList]
  induction cs with
  | nil => rfl
  | cons c rest ih =>
    rw [List.flatMap_cons,List.map_cons,ih (fun d member => ascii d (List.mem_cons_of_mem c member)),
      String.utf8EncodeChar_eq_singleton (asciiSize (ascii c List.mem_cons_self))]
    rfl

theorem asciiOrder {cs ds : List Char} (first : ∀ c ∈ cs, c.toNat < 128) (second : ∀ d ∈ ds, d.toNat < 128)
    (below : cs < ds) : cs.map (fun c => c.val.toUInt8) < ds.map (fun d => d.val.toUInt8) := by
  induction below with
  | nil => exact List.Lex.nil
  | @cons c cs ds _ ih =>
    exact List.Lex.cons (ih (fun d member => first d (List.mem_cons_of_mem _ member))
      (fun d member => second d (List.mem_cons_of_mem _ member)))
  | rel less => exact List.Lex.rel (asciiByte (first _ List.mem_cons_self) (second _ List.mem_cons_self) less)

theorem partRange {c : Char} (part : isNameChar c = true) : 48 ≤ c.toNat ∧ c.toNat ≤ 122 := by
  have between {first last : Char} (range : first ≤ c ∧ c ≤ last) (low : 48 ≤ first.toNat) (high : last.toNat ≤ 122) :
      48 ≤ c.toNat ∧ c.toNat ≤ 122 :=
    ⟨Nat.le_trans low (UInt32.le_iff_toNat_le.mp range.1),Nat.le_trans (UInt32.le_iff_toNat_le.mp range.2) high⟩
  simp only [isNameChar,Char.isAlphanum,Bool.or_eq_true,beq_iff_eq] at part
  rcases part with (letter | digit) | rfl
  · rcases Bool.or_eq_true_iff.mp letter with upper | lower
    · exact between (upperRange.mp upper) (by decide) (by decide)
    · exact between (lowerRange.mp lower) (by decide) (by decide)
  · exact between (digitRange.mp digit) (by decide) (by decide)
  · decide

theorem nameAscii {name : String} (valid : IsName name) : ∀ c ∈ name.toList, c.toNat < 128 :=
  fun c member => Nat.lt_of_le_of_lt (partRange (nameFree valid c member)).2 (by decide)

theorem namesBytes {a b : String} (first : IsName a) (second : IsName b) (below : a < b) : bytes a < bytes b := by
  rw [← String.ofList_toList (s := a),← String.ofList_toList (s := b),asciiBytes (nameAscii first),
    asciiBytes (nameAscii second)]
  exact asciiOrder (nameAscii first) (nameAscii second) below

end order

end SymbolicCalculus
