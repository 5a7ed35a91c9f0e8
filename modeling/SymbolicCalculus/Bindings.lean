/-! Values bound to names. The names are kept in strictly increasing order, so that bindings with the
same values at the same names are equal, and a listing of them needs no sorting. -/
namespace SymbolicCalculus
variable {α : Type}

def Increasing (entries : List (String × α)) : Prop := entries.Pairwise (fun a b => a.1 < b.1)

def insertEntry (name : String) (value : α) : List (String × α) → List (String × α)
  | [] => [(name,value)]
  | head :: tail =>
      if name < head.1 then (name,value) :: head :: tail
      else if name = head.1 then (name,value) :: tail
      else head :: insertEntry name value tail

theorem insertEntryMember {name : String} {value : α} {entries : List (String × α)} {entry : String × α}
    (member : entry ∈ insertEntry name value entries) : entry = (name,value) ∨ entry ∈ entries := by
  induction entries with
  | nil => exact Or.inl (List.mem_singleton.mp member)
  | cons head tail ih =>
    simp only [insertEntry] at member
    split at member
    · exact List.mem_cons.mp member
    split at member
    · exact (List.mem_cons.mp member).imp id (List.mem_cons_of_mem head)
    · rcases List.mem_cons.mp member with same | below
      · exact Or.inr (same ▸ List.mem_cons_self)
      · exact (ih below).imp id (List.mem_cons_of_mem head)

theorem insertEntryIncreasing (name : String) (value : α) {entries : List (String × α)}
    (ordered : Increasing entries) : Increasing (insertEntry name value entries) := by
  induction entries with
  | nil => exact List.pairwise_singleton _ _
  | cons head tail ih =>
    obtain ⟨first,rest⟩ := List.pairwise_cons.mp ordered
    simp only [insertEntry]
    split
    · rename_i below
      refine List.pairwise_cons.mpr ⟨?_,ordered⟩
      intro entry member
      rcases List.mem_cons.mp member with same | later
      · exact same ▸ below
      · exact String.lt_trans below (first entry later)
    split
    · rename_i same
      exact List.pairwise_cons.mpr ⟨fun entry later => same ▸ first entry later,rest⟩
    · rename_i notBelow notSame
      have above : head.1 < name := by
        apply String.not_le.mp
        intro below
        exact notSame (String.le_antisymm (String.not_lt.mp notBelow) below).symm
      refine List.pairwise_cons.mpr ⟨?_,ih rest⟩
      intro entry member
      rcases insertEntryMember member with same | later
      · exact same ▸ above
      · exact first entry later

def valueIn (entries : List (String × α)) (name : String) : Option α :=
  (entries.find? (fun entry => entry.1 == name)).map Prod.snd

theorem valueInsert (entries : List (String × α)) (name : String) (value : α) (other : String) :
    valueIn (insertEntry name value entries) other = if name = other then some value else valueIn entries other := by
  induction entries with
  | nil => by_cases same : name = other <;> simp [insertEntry,valueIn,same]
  | cons head tail ih =>
    simp only [insertEntry]
    by_cases same : name = other
    · rw [if_pos same] at ih ⊢
      subst same
      split
      · simp [valueIn]
      split
      · simp [valueIn]
      · rename_i notSame
        have apart : (head.1 == name) = false := beq_eq_false_iff_ne.mpr (Ne.symm notSame)
        simpa [valueIn,List.find?_cons,apart] using ih
    · rw [if_neg same] at ih ⊢
      have apart : (name == other) = false := beq_eq_false_iff_ne.mpr same
      split
      · simp [valueIn,List.find?_cons,apart]
      split
      · rename_i atHead
        simp [valueIn,apart,← atHead]
      · simp only [valueIn,List.find?_cons] at ih ⊢
        split
        · rfl
        · exact ih

structure Bindings (α : Type) where
  entries : List (String × α)
  ordered : Increasing entries

namespace Bindings

def empty : Bindings α := ⟨[],List.Pairwise.nil⟩

/-- A later binding of a name replaces the earlier one. -/
def bind (b : Bindings α) (name : String) (value : α) : Bindings α :=
  ⟨insertEntry name value b.entries,insertEntryIncreasing name value b.ordered⟩

def ofList (entries : List (String × α)) : Bindings α :=
  entries.foldl (fun b entry => b.bind entry.1 entry.2) empty

def unbind (b : Bindings α) (name : String) : Bindings α :=
  ⟨b.entries.filter (fun entry => entry.1 != name),b.ordered.filter _⟩

def value? (b : Bindings α) (name : String) : Option α := valueIn b.entries name

def names (b : Bindings α) : List String := b.entries.map Prod.fst

theorem valueEmpty (name : String) : (empty : Bindings α).value? name = none := rfl

theorem valueBind (b : Bindings α) (name : String) (value : α) (other : String) :
    (b.bind name value).value? other = if name = other then some value else b.value? other :=
  valueInsert b.entries name value other

theorem valueBindAll (b : Bindings α) (entries : List (String × α)) (name : String) :
    (entries.foldl (fun b entry => b.bind entry.1 entry.2) b).value? name =
      (valueIn entries.reverse name).or (b.value? name) := by
  induction entries generalizing b with
  | nil => rfl
  | cons head tail ih =>
    rw [List.foldl_cons,ih,valueBind]
    simp only [valueIn,List.reverse_cons,List.find?_append]
    cases tail.reverse.find? (fun entry => entry.1 == name) with
    | some entry => rfl
    | none => by_cases same : head.1 = name <;> simp [same]

theorem valueOfList (entries : List (String × α)) (name : String) :
    (ofList entries).value? name = valueIn entries.reverse name := by
  simp [ofList,valueBindAll,valueEmpty]

theorem valueUnbind (b : Bindings α) (name other : String) :
    (b.unbind name).value? other = if name = other then none else b.value? other := by
  simp only [value?,valueIn,unbind,List.find?_filter]
  by_cases same : name = other
  · subst same
    simp
  · rw [if_neg same]
    congr 2
    funext entry
    by_cases here : entry.1 = other
    · simp [here,Ne.symm same]
    · simp [here]

theorem boundName (b : Bindings α) (name : String) : name ∈ b.names ↔ (b.value? name).isSome := by
  simp [names,value?,valueIn]

theorem namesIncreasing (b : Bindings α) : b.names.Pairwise (· < ·) := List.pairwise_map.mpr b.ordered

end Bindings
end SymbolicCalculus
