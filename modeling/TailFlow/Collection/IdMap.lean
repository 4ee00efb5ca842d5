/-!
# Tables keyed by numbers

A table is the list of its entries by strictly ascending key. The order is part of the type, so two
tables that answer every lookup alike are equal, and walking a table visits its keys in order.
-/

namespace TailFlow

/-- A finite table whose entries stand by strictly ascending key. -/
structure IdMap (α : Type) where
  entries : List (Nat × α)
  ascending : entries.Pairwise fun earlier later => earlier.1 < later.1
  deriving DecidableEq

namespace IdMap

variable {α β : Type}

instance [Repr α] : Repr (IdMap α) where
  reprPrec table precedence := reprPrec table.entries precedence

def empty : IdMap α := ⟨[], .nil⟩

instance : Inhabited (IdMap α) := ⟨empty⟩

def insertEntry (key : Nat) (value : α) : List (Nat × α) → List (Nat × α)
  | [] => [(key, value)]
  | (other, held) :: rest =>
    if key < other then (key, value) :: (other, held) :: rest
    else if key = other then (key, value) :: rest
    else (other, held) :: insertEntry key value rest

theorem mem_insertEntry {key : Nat} {value : α} {entries : List (Nat × α)} {entry : Nat × α}
    (member : entry ∈ insertEntry key value entries) : entry = (key, value) ∨ entry ∈ entries := by
  induction entries with
  | nil => simpa [insertEntry] using member
  | cons head rest ih =>
    obtain ⟨other, held⟩ := head
    unfold insertEntry at member
    split at member
    · simpa using member
    · split at member
      · rcases List.mem_cons.mp member with found | found
        · exact .inl found
        · exact .inr (List.mem_cons_of_mem _ found)
      · rcases List.mem_cons.mp member with found | found
        · exact .inr (by simp [found])
        · rcases ih found with same | old
          · exact .inl same
          · exact .inr (List.mem_cons_of_mem _ old)

theorem insertEntry_ascending (key : Nat) (value : α) {entries : List (Nat × α)}
    (ascending : entries.Pairwise fun earlier later => earlier.1 < later.1) :
    (insertEntry key value entries).Pairwise fun earlier later => earlier.1 < later.1 := by
  induction entries with
  | nil => simp [insertEntry]
  | cons head rest ih =>
    obtain ⟨other, held⟩ := head
    have tail := List.pairwise_cons.mp ascending
    unfold insertEntry
    split
    · rename_i below
      refine List.pairwise_cons.mpr ⟨fun entry member => ?_, ascending⟩
      rcases List.mem_cons.mp member with found | found
      · simpa [found] using below
      · exact Nat.lt_trans below (tail.1 entry found)
    · split
      · rename_i same
        refine List.pairwise_cons.mpr ⟨fun entry member => ?_, tail.2⟩
        simpa [same] using tail.1 entry member
      · rename_i notBelow notSame
        refine List.pairwise_cons.mpr ⟨fun entry member => ?_, ih tail.2⟩
        rcases mem_insertEntry member with found | found
        · simp only [found]
          omega
        · exact tail.1 entry found

def insert (table : IdMap α) (key : Nat) (value : α) : IdMap α :=
  ⟨insertEntry key value table.entries, insertEntry_ascending key value table.ascending⟩

def get? (table : IdMap α) (key : Nat) : Option α :=
  (table.entries.find? fun entry => entry.1 == key).map Prod.snd

@[simp] theorem get?_empty (key : Nat) : (empty : IdMap α).get? key = none := rfl

theorem find?_insertEntry (key : Nat) (value : α) (entries : List (Nat × α)) (sought : Nat) :
    (insertEntry key value entries).find? (fun entry => entry.1 == sought)
      = if key = sought then some (key, value)
        else entries.find? fun entry => entry.1 == sought := by
  induction entries with
  | nil => by_cases same : key = sought <;> simp [insertEntry, same]
  | cons head rest ih =>
    obtain ⟨other, held⟩ := head
    unfold insertEntry
    by_cases below : key < other
    · rw [if_pos below]
      by_cases same : key = sought <;> simp [same]
    · rw [if_neg below]
      by_cases here : key = other
      · subst here
        by_cases same : key = sought <;> simp [same]
      · rw [if_neg here, List.find?_cons, List.find?_cons, ih]
        by_cases same : key = sought
        · have apart : (other == sought) = false := by
            rw [← same]
            exact beq_eq_false_iff_ne.mpr (Ne.symm here)
          simp [apart, same]
        · simp [same]

theorem get?_insert (table : IdMap α) (key : Nat) (value : α) (sought : Nat) :
    (table.insert key value).get? sought
      = if key = sought then some value else table.get? sought := by
  unfold get? insert
  rw [find?_insertEntry]
  by_cases same : key = sought <;> simp [same]

@[simp] theorem get?_insert_self (table : IdMap α) (key : Nat) (value : α) :
    (table.insert key value).get? key = some value := by
  simp [get?_insert]

/-- What is held under a key is the value of the one entry that has the key. -/
theorem get?_eq_some_iff {table : IdMap α} {key : Nat} {value : α} :
    table.get? key = some value ↔ (key, value) ∈ table.entries := by
  obtain ⟨entries, ascending⟩ := table
  show (entries.find? fun entry => entry.1 == key).map Prod.snd = some value ↔ _
  induction entries with
  | nil => simp
  | cons head rest ih =>
    obtain ⟨other, held⟩ := head
    have tail := List.pairwise_cons.mp ascending
    rw [List.find?_cons]
    by_cases here : other = key
    · subst here
      have absent : (other, value) ∉ rest := fun member =>
        Nat.lt_irrefl other (tail.1 (other, value) member)
      simp [absent, eq_comm]
    · have apart : (other == key) = false := beq_eq_false_iff_ne.mpr here
      simp only [apart, ih tail.2, List.mem_cons, Prod.mk.injEq]
      exact ⟨.inr, fun found => found.resolve_left fun same => here same.1.symm⟩

theorem ext_get? {left right : IdMap α} (alike : ∀ key, left.get? key = right.get? key) :
    left = right := by
  have same (entry : Nat × α) : entry ∈ left.entries ↔ entry ∈ right.entries := by
    rw [← get?_eq_some_iff, ← get?_eq_some_iff, alike]
  obtain ⟨first, firstAscends⟩ := left
  obtain ⟨second, secondAscends⟩ := right
  have equal : first = second := by
    refine List.Perm.eq_of_pairwise ?_ firstAscends secondAscends ?_
    · exact fun a b _ _ below above => absurd below (Nat.lt_asymm above)
    refine (List.perm_ext_iff_of_nodup ?_ ?_).mpr same
    · exact firstAscends.imp fun below => mt (congrArg Prod.fst) (Nat.ne_of_lt below)
    · exact secondAscends.imp fun below => mt (congrArg Prod.fst) (Nat.ne_of_lt below)
  subst equal
  rfl

def contains (table : IdMap α) (key : Nat) : Bool :=
  (table.get? key).isSome

/-- Replaces what is held under a key by a function of it. -/
def alter (table : IdMap α) (key : Nat) (change : Option α → α) : IdMap α :=
  table.insert key (change (table.get? key))

def erase (table : IdMap α) (key : Nat) : IdMap α :=
  ⟨table.entries.filter fun entry => entry.1 != key, table.ascending.filter _⟩

def map (f : α → β) (table : IdMap α) : IdMap β :=
  ⟨table.entries.map fun entry => (entry.1, f entry.2),
    List.Pairwise.map _ (fun _ _ below => below) table.ascending⟩

def keys (table : IdMap α) : List Nat := table.entries.map Prod.fst

def values (table : IdMap α) : List α := table.entries.map Prod.snd

def size (table : IdMap α) : Nat := table.entries.length

def isEmpty (table : IdMap α) : Bool := table.entries.isEmpty

/-- Adds every entry of `extra`, which wins where both have one. -/
def union (table extra : IdMap α) : IdMap α :=
  extra.entries.foldl (fun sofar entry => sofar.insert entry.1 entry.2) table

/-- The table of a list of entries, of which the last wins. -/
def ofList (entries : List (Nat × α)) : IdMap α :=
  entries.foldl (fun sofar entry => sofar.insert entry.1 entry.2) empty

end IdMap

end TailFlow
