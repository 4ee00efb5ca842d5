import Mathlib.Data.List.Perm.Subperm
import Mathlib.Logic.Relation
import TailFlow.Collection.IdMap
import TailFlow.Collection.Reach
import TailFlow.Collection.Sum

/-!
# Tables, sets and what a relation reaches

A union of tables is read off its two parts, and the search for what a relation reaches finds all of
it and nothing else, provided that the successors come from a list that is shorter than the number
of rounds.
-/

namespace TailFlow

namespace IdMap

variable {α : Type}

theorem get?_alter (table : IdMap α) (key : Nat) (change : Option α → α) (sought : Nat) :
    (table.alter key change).get? sought
      = if key = sought then some (change (table.get? key)) else table.get? sought :=
  get?_insert table key _ sought

theorem get?_union (table extra : IdMap α) (key : Nat) :
    (table.union extra).get? key = (extra.get? key).or (table.get? key) := by
  obtain ⟨entries, ascending⟩ := extra
  show (entries.foldl (fun sofar entry => sofar.insert entry.1 entry.2) table).get? key
    = ((entries.find? fun entry => entry.1 == key).map Prod.snd).or (table.get? key)
  induction entries generalizing table with
  | nil => rfl
  | cons head rest ih =>
    obtain ⟨other, held⟩ := head
    have htail := List.pairwise_cons.mp ascending
    rw [List.foldl_cons, ih _ htail.2, List.find?_cons, get?_insert]
    by_cases here : other = key
    · subst here
      have habsent : (rest.find? fun entry => entry.1 == other) = none := by
        rw [List.find?_eq_none]
        intro entry hmem
        have := htail.1 entry hmem
        simp only [beq_iff_eq]
        omega
      simp [habsent]
    · have hapart : (other == key) = false := beq_eq_false_iff_ne.mpr here
      simp [hapart, here]

@[simp] theorem union_empty (table : IdMap α) : table.union empty = table := rfl

@[simp] theorem empty_union (table : IdMap α) : empty.union table = table :=
  ext_get? fun key => by rw [get?_union, get?_empty, Option.or_none]

/-- An insertion adds its value to the sum of the values, in place of the value that was held. -/
theorem sumOf_values_insert (table : IdMap Nat) (key value : Nat) :
    sumOf (table.insert key value).values + (table.get? key).getD 0
      = sumOf table.values + value := by
  obtain ⟨entries, ascending⟩ := table
  show sumOf ((insertEntry key value entries).map Prod.snd)
      + ((entries.find? fun entry => entry.1 == key).map Prod.snd).getD 0
    = sumOf (entries.map Prod.snd) + value
  induction entries with
  | nil => simp [insertEntry]
  | cons head rest ih =>
    obtain ⟨other, held⟩ := head
    obtain ⟨hfirst, hrest⟩ := List.pairwise_cons.mp ascending
    unfold insertEntry
    rw [List.find?_cons]
    split
    · rename_i hbelow
      have habsent : (rest.find? fun entry => entry.1 == key) = none := by
        refine List.find?_eq_none.mpr fun entry hmem => ?_
        have := hfirst entry hmem
        simp only [beq_iff_eq]
        omega
      have hapart : (other == key) = false := beq_eq_false_iff_ne.mpr (Nat.ne_of_gt hbelow)
      simp [habsent, hapart, Nat.add_comm]
    · split
      · rename_i hsame
        simp [hsame, Nat.add_comm, Nat.add_left_comm]
      · rename_i hne
        have hapart : (other == key) = false := beq_eq_false_iff_ne.mpr (Ne.symm hne)
        simp only [hapart, List.map_cons, sumOf_cons, Nat.add_assoc, ih hrest]

theorem contains_eq_true {table : IdMap α} {key : Nat} :
    table.contains key = true ↔ ∃ value, table.get? key = some value :=
  Option.isSome_iff_exists

theorem mem_keys {table : IdMap α} {key : Nat} :
    key ∈ table.keys ↔ ∃ value, table.get? key = some value := by
  simp only [keys, List.mem_map, get?_eq_some_iff]
  constructor
  · rintro ⟨⟨_, value⟩, hmem, rfl⟩
    exact ⟨value, hmem⟩
  · exact fun ⟨value, hmem⟩ => ⟨(key, value), hmem, rfl⟩

theorem keys_eq {table : IdMap α} {ids : List Nat} (hascending : ids.Pairwise (· < ·))
    (hmem : ∀ id, id ∈ ids ↔ ∃ value, table.get? id = some value) : table.keys = ids := by
  have hkeys : table.keys.Pairwise (· < ·) := List.pairwise_map.mpr table.ascending
  refine List.Perm.eq_of_pairwise (fun _ _ _ _ hlt hgt => absurd hlt (Nat.lt_asymm hgt)) hkeys
    hascending ?_
  refine (List.perm_ext_iff_of_nodup (hkeys.imp Nat.ne_of_lt) (hascending.imp Nat.ne_of_lt)).mpr ?_
  exact fun id => mem_keys.trans (hmem id).symm

theorem mem_values {table : IdMap α} {value : α} :
    value ∈ table.values ↔ ∃ key, table.get? key = some value := by
  simp only [values, List.mem_map, get?_eq_some_iff]
  constructor
  · rintro ⟨⟨key, _⟩, hmem, rfl⟩
    exact ⟨key, hmem⟩
  · exact fun ⟨key, hmem⟩ => ⟨(key, value), hmem, rfl⟩

end IdMap

namespace IdSet

theorem nodup_members (set : IdSet) : set.members.Nodup := set.ascending.imp Nat.ne_of_lt

theorem mem_members {set : IdSet} {id : Nat} : id ∈ set.members ↔ id ∈ set := Iff.rfl

theorem not_mem_empty (id : Nat) : id ∉ empty := List.not_mem_nil

theorem size_le_of_subset {set : IdSet} {ids : List Nat} (hsub : ∀ id ∈ set, id ∈ ids) :
    set.size ≤ ids.length :=
  (List.subperm_of_subset set.nodup_members hsub).length_le

/-- A set that has all members of another one and is not the same set is greater. -/
theorem size_lt_of_ssubset {smaller greater : IdSet} (hsub : ∀ id ∈ smaller, id ∈ greater)
    (hne : greater ≠ smaller) : smaller.size < greater.size := by
  have hperm := List.subperm_of_subset smaller.nodup_members hsub
  refine Nat.lt_of_le_of_ne hperm.length_le fun hsize => hne ?_
  have hsame := hperm.perm_of_length_le (Nat.le_of_eq hsize.symm)
  exact ext_mem fun member => hsame.symm.mem_iff

theorem mem_drop_one_iff {set : IdSet} {id : Nat} :
    id ∈ set.members.drop 1 ↔ id ∈ set ∧ ∃ first ∈ set, first < id := by
  obtain ⟨members, hascending⟩ := set
  change id ∈ members.drop 1 ↔ id ∈ members ∧ ∃ first ∈ members, first < id
  cases members with
  | nil => simp
  | cons least rest =>
    obtain ⟨hleast, hrest⟩ := List.pairwise_cons.mp hascending
    rw [List.drop_one, List.tail_cons]
    constructor
    · exact fun hmem => ⟨.tail _ hmem, least, List.mem_cons_self, hleast id hmem⟩
    · rintro ⟨hmem, first, hfirst, hlt⟩
      refine (List.mem_cons.mp hmem).resolve_left fun hsame => ?_
      subst hsame
      rcases List.mem_cons.mp hfirst with rfl | hin
      · exact Nat.lt_irrefl _ hlt
      · exact Nat.lt_asymm hlt (hleast first hin)

theorem size_le_one_iff {set : IdSet} : set.size ≤ 1 ↔ ∀ a ∈ set, ∀ b ∈ set, a = b := by
  obtain ⟨members, hascending⟩ := set
  show members.length ≤ 1 ↔ ∀ a ∈ members, ∀ b ∈ members, a = b
  match members, hascending with
  | [], _ => simp
  | [only], _ => simp
  | first :: second :: rest, hascending =>
    have hlt := (List.pairwise_cons.mp hascending).1 second List.mem_cons_self
    refine ⟨fun hsize => absurd hsize (by simp), fun hall => ?_⟩
    have := hall first List.mem_cons_self second (.tail _ List.mem_cons_self)
    omega

end IdSet

/-- How many there are of a kind is how many places hold something of the kind. -/
theorem countP_eq_length_filter_range {α : Type} (items : Array α) (p : α → Bool) {bound : Nat}
    (hbound : items.size ≤ bound) :
    items.countP p = ((List.range bound).filter fun place => items[place]?.any p).length := by
  have hcount (items : List α) {bound : Nat} (hbound : items.length ≤ bound) :
      (List.range bound).countP (fun place => items[place]?.any p) = items.countP p := by
    induction items generalizing bound with
    | nil => simp
    | cons item rest ih =>
      obtain ⟨bound, rfl⟩ := Nat.exists_eq_add_of_le' (Nat.le_trans (Nat.succ_pos _) hbound)
      rw [List.range_succ_eq_map, List.countP_cons, List.countP_cons, List.countP_map,
        ← ih (Nat.le_of_succ_le_succ hbound)]
      rfl
  rw [← Array.countP_toList, ← hcount items.toList (by simpa using hbound),
    List.countP_eq_length_filter]
  simp only [Array.getElem?_toList]

/-- Different places that hold something of a kind are no more than there are of the kind. -/
theorem length_le_countP {α : Type} {items : Array α} {p : α → Bool} {places : List Nat}
    (hnodup : places.Nodup)
    (hplaces : ∀ place ∈ places, ∃ item, items[place]? = some item ∧ p item) :
    places.length ≤ items.countP p := by
  rw [countP_eq_length_filter_range items p (Nat.le_refl _)]
  refine (List.subperm_of_subset hnodup fun place hmem => ?_).length_le
  obtain ⟨item, hitem, hholds⟩ := hplaces place hmem
  refine List.mem_filter.mpr ⟨List.mem_range.mpr (Array.getElem?_eq_some_iff.mp hitem).1, ?_⟩
  rw [hitem]
  exact hholds

namespace Reach

variable {next : Nat → List Nat}

/-- One number leads to another if following the relation any number of times does. -/
def Leads (next : Nat → List Nat) : Nat → Nat → Prop :=
  Relation.ReflTransGen fun origin target => target ∈ next origin

theorem mem_widen {seen : IdSet} {id : Nat} :
    id ∈ widen next seen ↔ id ∈ seen ∨ ∃ origin ∈ seen, id ∈ next origin := by
  rw [widen, IdSet.mem_insertAll, List.mem_flatMap]
  exact Iff.rfl

theorem leads_of_mem_closure {rounds : Nat} {seen : IdSet} {id : Nat}
    (hmem : id ∈ closure next rounds seen) : ∃ start ∈ seen, Leads next start id := by
  induction rounds generalizing seen with
  | zero => exact ⟨id, hmem, .refl⟩
  | succ rounds ih =>
    rw [closure] at hmem
    split at hmem
    · exact ⟨id, hmem, .refl⟩
    · obtain ⟨middle, hmiddle, hleads⟩ := ih hmem
      rcases mem_widen.mp hmiddle with hseen | ⟨origin, hseen, hnext⟩
      · exact ⟨middle, hseen, hleads⟩
      · exact ⟨origin, hseen, .head hnext hleads⟩

theorem mem_closure_of_mem {rounds : Nat} {seen : IdSet} {id : Nat} (hmem : id ∈ seen) :
    id ∈ closure next rounds seen := by
  induction rounds generalizing seen with
  | zero => exact hmem
  | succ rounds ih =>
    rw [closure]
    split
    · exact hmem
    · exact ih (mem_widen.mpr (.inl hmem))

/-- A search that is given a round for every number that may turn up ends because nothing new was
found. The invariant is that the rounds left and the numbers seen make up for the numbers that may
be seen. -/
theorem closure_closed (extra : List Nat) (hnext : ∀ origin, ∀ id ∈ next origin, id ∈ extra)
    {rounds : Nat} {seen : IdSet} {first : List Nat} (hseen : ∀ id ∈ seen, id ∈ first ++ extra)
    (hrounds : (first ++ extra).length < seen.size + rounds) {origin id : Nat}
    (horigin : origin ∈ closure next rounds seen) (hid : id ∈ next origin) :
    id ∈ closure next rounds seen := by
  induction rounds generalizing seen with
  | zero =>
    have := IdSet.size_le_of_subset hseen
    omega
  | succ rounds ih =>
    rw [closure] at horigin ⊢
    split at horigin
    · rename_i hsame
      rw [if_pos hsame]
      rw [← hsame]
      exact mem_widen.mpr (.inr ⟨origin, horigin, hid⟩)
    · rename_i hmore
      rw [if_neg hmore]
      refine ih (fun id hmem => ?_) ?_ horigin
      · rcases mem_widen.mp hmem with hold | ⟨origin, _, hnew⟩
        · exact hseen id hold
        · exact List.mem_append_right _ (hnext origin id hnew)
      · have := IdSet.size_lt_of_ssubset (fun id hmem => mem_widen.mpr (.inl hmem)) hmore
        omega

theorem mem_closure_iff (extra : List Nat) (hnext : ∀ origin, ∀ id ∈ next origin, id ∈ extra)
    {rounds : Nat} (hrounds : extra.length < rounds) {seen : IdSet} {id : Nat} :
    id ∈ closure next rounds seen ↔ ∃ start ∈ seen, Leads next start id := by
  refine ⟨leads_of_mem_closure, ?_⟩
  rintro ⟨start, hstart, hleads⟩
  have hsize : (seen.members ++ extra).length < seen.size + rounds := by
    have : seen.members.length = seen.size := rfl
    rw [List.length_append]
    omega
  induction hleads with
  | refl => exact mem_closure_of_mem hstart
  | tail _ hstep ih =>
    exact closure_closed extra hnext (fun id hmem => List.mem_append_left _ hmem) hsize ih hstep

end Reach

end TailFlow
