/-!
# Sets of numbers

A set is the list of its members in strictly ascending order, so equal sets are equal lists and
walking a set visits its members in order.
-/

namespace TailFlow

/-- A finite set of numbers, held in strictly ascending order. -/
structure IdSet where
  members : List Nat
  ascending : members.Pairwise (· < ·)
  deriving DecidableEq

namespace IdSet

instance : Repr IdSet where
  reprPrec set precedence := reprPrec set.members precedence

def empty : IdSet := ⟨[], .nil⟩

instance : Inhabited IdSet := ⟨empty⟩

def insertMember (id : Nat) : List Nat → List Nat
  | [] => [id]
  | other :: rest =>
    if id < other then id :: other :: rest
    else if id = other then other :: rest
    else other :: insertMember id rest

theorem mem_insertMember {id member : Nat} {members : List Nat} :
    member ∈ insertMember id members ↔ member = id ∨ member ∈ members := by
  induction members with
  | nil => simp [insertMember]
  | cons other rest ih =>
    unfold insertMember
    split
    · simp
    · split
      · rename_i same
        simp [same]
      · simp only [List.mem_cons, ih]
        exact or_left_comm

theorem insertMember_ascending (id : Nat) {members : List Nat}
    (ascending : members.Pairwise (· < ·)) : (insertMember id members).Pairwise (· < ·) := by
  induction members with
  | nil => simp [insertMember]
  | cons other rest ih =>
    have tail := List.pairwise_cons.mp ascending
    unfold insertMember
    split
    · rename_i below
      refine List.pairwise_cons.mpr ⟨fun member found => ?_, ascending⟩
      rcases List.mem_cons.mp found with same | later
      · omega
      · exact Nat.lt_trans below (tail.1 member later)
    · split
      · exact ascending
      · refine List.pairwise_cons.mpr ⟨fun member found => ?_, ih tail.2⟩
        rcases mem_insertMember.mp found with same | later
        · omega
        · exact tail.1 member later

def insert (set : IdSet) (id : Nat) : IdSet :=
  ⟨insertMember id set.members, insertMember_ascending id set.ascending⟩

def insertAll (set : IdSet) (ids : List Nat) : IdSet := ids.foldl insert set

def ofList (ids : List Nat) : IdSet := empty.insertAll ids

def size (set : IdSet) : Nat := set.members.length

def isEmpty (set : IdSet) : Bool := set.members.isEmpty

instance : Membership Nat IdSet where
  mem set id := id ∈ set.members

instance (id : Nat) (set : IdSet) : Decidable (id ∈ set) :=
  inferInstanceAs (Decidable (id ∈ set.members))

theorem mem_insert {set : IdSet} {id member : Nat} :
    member ∈ set.insert id ↔ member = id ∨ member ∈ set :=
  mem_insertMember

theorem mem_insertAll {set : IdSet} {ids : List Nat} {member : Nat} :
    member ∈ set.insertAll ids ↔ member ∈ set ∨ member ∈ ids := by
  induction ids generalizing set with
  | nil => simp [insertAll]
  | cons id rest ih =>
    show member ∈ (set.insert id).insertAll rest ↔ _
    rw [ih, mem_insert, List.mem_cons]
    grind

@[simp] theorem mem_ofList {ids : List Nat} {member : Nat} :
    member ∈ ofList ids ↔ member ∈ ids := by
  unfold ofList
  rw [mem_insertAll]
  exact or_iff_right (List.not_mem_nil (a := member))

theorem ext_mem {left right : IdSet} (same : ∀ member, member ∈ left ↔ member ∈ right) :
    left = right := by
  obtain ⟨first, firstAscends⟩ := left
  obtain ⟨second, secondAscends⟩ := right
  have equal : first = second := by
    refine List.Perm.eq_of_pairwise ?_ firstAscends secondAscends ?_
    · exact fun a b _ _ below above => absurd below (Nat.lt_asymm above)
    refine (List.perm_ext_iff_of_nodup ?_ ?_).mpr same
    · exact firstAscends.imp Nat.ne_of_lt
    · exact secondAscends.imp Nat.ne_of_lt
  subst equal
  rfl

end IdSet

end TailFlow
