import TailFlow.Eval.Value
import TailFlow.Proofs.Collection
import TailFlow.Proofs.Program.Arena

/-!
# What environments hold

A tensor is read as the value that it is bound to, and as the value that it carries if it is a
constant that nothing is bound to. Two runs are compared by what can be read: one environment covers
another one if it has a related value wherever the other one has a value.
-/

namespace TailFlow

open Environment

theorem exists_arrays {values : List Value} (hall : ∀ value ∈ values, value.isArray) :
    ∃ arrays : List DenseArray, values = arrays.map .array := by
  induction values with
  | nil => exact ⟨[], rfl⟩
  | cons value rest ih =>
    obtain ⟨hhead, hrest⟩ := List.forall_mem_cons.mp hall
    obtain ⟨arrays, rfl⟩ := ih hrest
    cases value with
    | array array => exact ⟨array :: arrays, rfl⟩
    | closure _ _ => exact nomatch hhead

namespace Program

variable {P P' : Program} {env env' : Environment} {id other : TensorId} {value : Value}

/-- A tensor is read as a value. -/
def Reads (P : Program) (env : Environment) (id : TensorId) (value : Value) : Prop :=
  env.value P id = .ok value

theorem reads_of_get? (hbound : env.get? id = some value) : P.Reads env id value := by
  unfold Reads Environment.value
  rw [hbound]

/-- What is read depends on the binding and the declaration of the tensor only. -/
theorem reads_congr (hbound : env'.get? id = env.get? id)
    (htensor : P'.tensors[id]? = P.tensors[id]?) : P'.Reads env' id value ↔ P.Reads env id value := by
  unfold Reads Environment.value tensor
  rw [hbound, htensor]

theorem Reads.unique {second : Value} (hfirst : P.Reads env id value)
    (hsecond : P.Reads env id second) : second = value :=
  Except.ok.inj (hsecond.symm.trans hfirst)

theorem Reads.cases (hreads : P.Reads env id value) : env.get? id = some value
    ∨ env.get? id = none ∧ value.isArray
      ∧ ∃ tensor, P.tensors[id]? = some tensor ∧ tensor.isConstant := by
  unfold Reads Environment.value at hreads
  split at hreads
  · rename_i found hfound
    rw [hfound, Except.ok.inj hreads]
    exact .inl rfl
  · rename_i hnone
    obtain ⟨tensor, htensor, hreads⟩ := Outcome.bind_eq_ok.mp hreads
    split at hreads
    · exact (Outcome.refuse_ne_ok hreads).elim
    · rename_i elements hconstant
      split at hreads
      · obtain rfl := Outcome.pure_eq_ok.mp hreads
        refine .inr ⟨hnone, rfl, tensor, tensor_eq_ok.mp htensor, ?_⟩
        rw [Tensor.isConstant, hconstant]
        rfl
      · exact (Outcome.refuse_ne_ok hreads).elim

theorem reads_insert_self : P.Reads (env.insert id value) id value :=
  reads_of_get? (IdMap.get?_insert_self env id value)

theorem reads_insert_of_ne {bound : Value} (hne : id ≠ other) :
    P.Reads (env.insert other bound) id value ↔ P.Reads env id value := by
  refine reads_congr ?_ rfl
  rw [IdMap.get?_insert, if_neg (Ne.symm hne)]

end Program

namespace Environment

variable {env env' : Environment} {ids : List TensorId} {values : List Value}

/-! ### Binding -/

theorem bindAll_cons (id : TensorId) (ids : List TensorId) (value : Value) (values : List Value) :
    env.bindAll (id :: ids) (value :: values) = .ok env'
      ↔ Environment.bindAll (env.insert id value) ids values = .ok env' := by
  simp only [bindAll, List.length_cons, Nat.add_right_cancel_iff, List.zip_cons_cons,
    List.foldl_cons]
  by_cases hlength : ids.length = values.length
  · rw [if_pos hlength, if_pos hlength]
  · rw [if_neg hlength, if_neg hlength]
    exact ⟨fun h => (Outcome.refuse_ne_ok h).elim, fun h => (Outcome.refuse_ne_ok h).elim⟩

theorem length_eq_of_bindAll (hbind : env.bindAll ids values = .ok env') :
    ids.length = values.length := by
  unfold bindAll at hbind
  split at hbind
  · assumption
  · exact (Outcome.refuse_ne_ok hbind).elim

theorem exists_bindAll (env : Environment) (hlength : ids.length = values.length) :
    ∃ env', env.bindAll ids values = .ok env' := by
  rw [bindAll, if_pos hlength]
  exact ⟨_, rfl⟩

theorem bindAll_singleton {id : TensorId} {value : Value} :
    env.bindAll [id] [value] = .ok (env.insert id value) := rfl

theorem bindAll_nil_eq_ok (hbind : env.bindAll [] values = .ok env') : env' = env := by
  obtain rfl := List.length_eq_zero_iff.mp (length_eq_of_bindAll hbind).symm
  exact (Except.ok.inj hbind).symm

theorem bindAll_induction {motive : Environment → Prop}
    (hinsert : ∀ env, ∀ id ∈ ids, ∀ value ∈ values, motive env → motive (env.insert id value))
    (hbind : env.bindAll ids values = .ok env') (hstart : motive env) : motive env' := by
  induction ids generalizing env values with
  | nil =>
    rw [bindAll_nil_eq_ok hbind]
    exact hstart
  | cons id rest ih =>
    cases values with
    | nil => exact nomatch length_eq_of_bindAll hbind
    | cons value values =>
      refine ih ?_ ((bindAll_cons id rest value values).mp hbind)
        (hinsert env id List.mem_cons_self value List.mem_cons_self hstart)
      exact fun env other hother bound hbound =>
        hinsert env other (.tail _ hother) bound (.tail _ hbound)

theorem get?_bindAll_of_notMem (hbind : env.bindAll ids values = .ok env') {id : TensorId}
    (habsent : id ∉ ids) : env'.get? id = env.get? id := by
  refine bindAll_induction (motive := fun middle => middle.get? id = env.get? id) ?_ hbind rfl
  intro middle other hother value _ hsame
  rw [IdMap.get?_insert, if_neg (fun h : other = id => habsent (h ▸ hother)), hsame]

/-- Whatever is bound afterwards was bound before or belongs to the tensors. -/
theorem bound_of_bindAll (hbind : env.bindAll ids values = .ok env') {id : TensorId} {value : Value}
    (hbound : env'.get? id = some value) : env.get? id = some value ∨ id ∈ ids ∧ value ∈ values := by
  refine bindAll_induction (motive := fun middle => middle.get? id = some value →
    env.get? id = some value ∨ id ∈ ids ∧ value ∈ values) ?_ hbind (fun h => .inl h) hbound
  intro middle other hother bound hmem ih hbound
  rw [IdMap.get?_insert] at hbound
  split at hbound
  · rename_i hsame
    obtain rfl := Option.some.inj hbound
    exact .inr ⟨hsame ▸ hother, hmem⟩
  · exact ih hbound

theorem get?_bindAll_of_mem {other other' : Environment} (hbind : env.bindAll ids values = .ok env')
    (hother : other.bindAll ids values = .ok other') {id : TensorId} (hmem : id ∈ ids) :
    other'.get? id = env'.get? id ∧ ∃ value, (id, value) ∈ ids.zip values
      ∧ env'.get? id = some value := by
  induction ids generalizing env other values with
  | nil => exact nomatch hmem
  | cons first rest ih =>
    cases values with
    | nil => exact nomatch length_eq_of_bindAll hbind
    | cons value values =>
      have hrest := (bindAll_cons first rest value values).mp hbind
      have hrest' := (bindAll_cons first rest value values).mp hother
      by_cases hlater : id ∈ rest
      · obtain ⟨hsame, found, hpair, hfound⟩ := ih hrest hrest' hlater
        exact ⟨hsame, found, List.mem_cons_of_mem _ hpair, hfound⟩
      · obtain rfl := (List.mem_cons.mp hmem).resolve_right hlater
        rw [get?_bindAll_of_notMem hrest hlater, get?_bindAll_of_notMem hrest' hlater,
          IdMap.get?_insert_self, IdMap.get?_insert_self]
        exact ⟨rfl, value, List.mem_cons_self, rfl⟩

theorem reads_bindAll {P : Program} (hnodup : ids.Nodup) (hbind : env.bindAll ids values = .ok env') :
    List.Forall₂ (P.Reads env') ids values := by
  induction ids generalizing env values with
  | nil =>
    obtain rfl := List.length_eq_zero_iff.mp (length_eq_of_bindAll hbind).symm
    exact .nil
  | cons id rest ih =>
    obtain ⟨habsent, hnodup⟩ := List.nodup_cons.mp hnodup
    cases values with
    | nil => exact nomatch length_eq_of_bindAll hbind
    | cons value values =>
      have hrest := (bindAll_cons id rest value values).mp hbind
      refine .cons (Program.reads_of_get? ?_) (ih hnodup hrest)
      rw [get?_bindAll_of_notMem hrest habsent, IdMap.get?_insert_self]

/-- Tensors are read as the values that are bound to them, also if some are bound twice, provided
that the values have been read from the tensors. -/
theorem reads_bindAll_of_reads {P P' : Program} {other after : Environment}
    (hreads : List.Forall₂ (P.Reads env) ids values)
    (hbind : other.bindAll ids values = .ok after) : List.Forall₂ (P'.Reads after) ids values := by
  obtain ⟨hlength, hpairs⟩ := List.forall₂_iff_zip.mp hreads
  refine List.forall₂_iff_zip.mpr ⟨hlength, fun {id value} hpair => ?_⟩
  obtain ⟨-, bound, hbound, hfound⟩ :=
    get?_bindAll_of_mem hbind hbind (List.of_mem_zip hpair).1
  rw [(hpairs hbound).unique (hpairs hpair)]
  exact Program.reads_of_get? hfound

end Environment

/-! ### Covering -/

/-- The second environment has a related value wherever the first one has a value. -/
def Covers (related : TensorId → Value → Value → Prop) (P : Program) (env : Environment)
    (P' : Program) (env' : Environment) : Prop :=
  ∀ ⦃id : TensorId⦄ ⦃value : Value⦄, id < P.tensors.size → P.Reads env id value →
    ∃ value', P'.Reads env' id value' ∧ related id value value'

namespace Covers

variable {related : TensorId → Value → Value → Prop} {P P' : Program} {env env' : Environment}

theorem insert (hcovers : Covers related P env P' env') {id : TensorId} {value value' : Value}
    (hrelated : related id value value') :
    Covers related P (env.insert id value) P' (env'.insert id value') := by
  intro other read hlt hreads
  by_cases hsame : other = id
  · subst hsame
    obtain rfl := hreads.unique Program.reads_insert_self
    exact ⟨value', Program.reads_insert_self, hrelated⟩
  · obtain ⟨read', hreads', hread⟩ := hcovers hlt ((Program.reads_insert_of_ne hsame).mp hreads)
    exact ⟨read', (Program.reads_insert_of_ne hsame).mpr hreads', hread⟩

/-- Binding the same values on both sides, where the second environment had to cover the other
tensors only. -/
theorem bindAll_both {ids : List TensorId} {values : List Value} {after after' : Environment}
    (hothers : ∀ ⦃id value⦄, id < P.tensors.size → id ∉ ids → P.Reads env id value →
      ∃ value', P'.Reads env' id value' ∧ related id value value')
    (hrelated : ∀ id ∈ ids, ∀ value ∈ values, related id value value)
    (hbind : env.bindAll ids values = .ok after) (hbind' : env'.bindAll ids values = .ok after') :
    Covers related P after P' after' := by
  intro id value hlt hreads
  by_cases hmem : id ∈ ids
  · obtain ⟨hsame, bound, hpair, hbound⟩ := Environment.get?_bindAll_of_mem hbind hbind' hmem
    obtain rfl := hreads.unique (Program.reads_of_get? hbound)
    exact ⟨bound, Program.reads_of_get? (hsame.trans hbound),
      hrelated id hmem bound (List.of_mem_zip hpair).2⟩
  · have hbefore := Environment.get?_bindAll_of_notMem hbind hmem
    obtain ⟨value', hreads', hvalue⟩ :=
      hothers hlt hmem ((Program.reads_congr hbefore rfl).mp hreads)
    have hbefore' := Environment.get?_bindAll_of_notMem hbind' hmem
    exact ⟨value', (Program.reads_congr hbefore' rfl).mpr hreads', hvalue⟩

theorem bindAll (hcovers : Covers related P env P' env') {ids : List TensorId} {values : List Value}
    (hrelated : ∀ id ∈ ids, ∀ value ∈ values, related id value value) {after : Environment}
    (hbind : env.bindAll ids values = .ok after) :
    ∃ after', env'.bindAll ids values = .ok after' ∧ Covers related P after P' after' := by
  obtain ⟨after', hbind'⟩ := Environment.exists_bindAll env' (Environment.length_eq_of_bindAll hbind)
  exact ⟨after', hbind', bindAll_both (fun _ _ hlt _ hreads => hcovers hlt hreads) hrelated hbind
    hbind'⟩

/-- The second environment may change wherever the first one has no value. -/
theorem congr_right (hcovers : Covers related P env P' env') {after : Environment}
    (hsame : ∀ ⦃id value⦄, id < P.tensors.size → P.Reads env id value →
      after.get? id = env'.get? id) : Covers related P env P' after := by
  intro id value hlt hreads
  obtain ⟨value', hreads', hrelated⟩ := hcovers hlt hreads
  exact ⟨value', (Program.reads_congr (hsame hlt hreads) rfl).mpr hreads', hrelated⟩

theorem bindAll_right (hcovers : Covers related P env P' env') {ids : List TensorId}
    {values : List Value} {after : Environment} (hge : ∀ id ∈ ids, P.tensors.size ≤ id)
    (hbind : env'.bindAll ids values = .ok after) : Covers related P env P' after := by
  refine hcovers.congr_right fun id value hlt _ => get?_bindAll_of_notMem hbind fun hmem => ?_
  exact Nat.not_lt.mpr (hge id hmem) hlt

end Covers

end TailFlow
