import TailFlow.Proofs.Handles.Separation

/-!
# Separating twice

Separation has nothing to do just if of the calls that a binder reaches none but the first has a handle
that its own subgraph makes. After separation this can fail in one way only: a switch in the subgraph of
a call picks from a handle that the subgraph does not make, so that the copies for the call pick from it
too, and the binder behind it still reaches the call and one before it. Then each separation copies the
switch anew.
-/

namespace TailFlow

open Program

namespace Program

variable {P Q : Program}

/-- Of the calls that a binder reaches, none but the first has a handle that its subgraph makes. -/
def Separated (P : Program) : Prop :=
  ∀ ⦃binder first call : NodeId⦄, P.Reaches binder first → P.Reaches binder call → first < call →
    ¬ P.OwnsHandle call

/-! ### When there is nothing to do -/

theorem rewireCall_of_foreign (hP : P.WellFormed) {call : NodeId} (hcall : P.ListsCall call)
    (hforeign : ¬ P.OwnsHandle call) :
    (P.rewireCall call : Outcome ScheduleError (Bool × Program)) = .ok (false, P) := by
  obtain ⟨listed, hlists, rfl, hisCall⟩ := hcall
  obtain ⟨-, -, -, hnode⟩ := id hlists
  obtain ⟨handle, hhead⟩ := hP.exists_handle hlists hisCall
  obtain ⟨listing, hlist⟩ := hP.exists_listing (ε := ScheduleError)
  have hnone (source : ListedNode) : ¬ HandleCopy.Local listing listed.owner handle source :=
    fun hlocal => hforeign <| (ownsHandle_iff hP hlists hisCall hhead).mpr
      ⟨source, (madeBy_iff hlist).mpr hlocal⟩
  have hcopy : (Copying.copyHandle P listing listed.owner listed.node.name (listing.length + 1)
      handle ⟨P, []⟩ : Outcome ScheduleError (TensorId × Copying)) = .ok (handle, ⟨P, []⟩) := by
    unfold Copying.copyHandle
    cases hproducer : ListedNode.producer? listing handle with
    | none => rfl
    | some source =>
      obtain ⟨hsource, -⟩ := lists_of_producer? hP hlist hproducer
      simp only [hP.owner?_eq hsource, bne_iff_ne, ne_eq, Option.some.injEq]
      by_cases howner : source.owner = listed.owner
      swap
      · rw [if_pos howner]
      rw [if_neg (not_not_intro howner)]
      -- A binder or a switch of the subgraph would make the handle.
      have hkind : source.node.givesHandle = false :=
        Bool.eq_false_iff.mpr fun hgives => hnone source ⟨hproducer, howner, hgives⟩
      cases hsort : source.node.kind with
      | kernel op => rfl
      | call => rfl
      | bind callee => simp [Node.givesHandle, Node.callee?, hsort, NodeKind.callee?] at hkind
      | switch => simp [Node.givesHandle, hsort, NodeKind.isSwitch] at hkind
      | switchLayer => simp [Node.givesHandle, hsort, NodeKind.isSwitch] at hkind
  unfold rewireCall
  rw [hP.owner?_eq hlists]
  simp only [hlist, node_eq_ok.mpr hnode, hhead, Outcome.following_some, Outcome.ok_bind, hcopy]
  rfl

theorem rewireCalls_of_foreign (hP : P.WellFormed) {calls : List NodeId}
    (hcalls : ∀ call ∈ calls, P.ListsCall call ∧ ¬ P.OwnsHandle call) (count : Nat) :
    (rewireCalls (count, P) calls : Outcome ScheduleError (Nat × Program)) = .ok (count, P) := by
  induction calls with
  | nil => rfl
  | cons call rest ih =>
    obtain ⟨⟨hcall, hforeign⟩, hrest⟩ := List.forall_mem_cons.mp hcalls
    rw [rewireCalls, rewireCall_of_foreign hP hcall hforeign, Outcome.ok_bind]
    exact ih hrest

theorem separateHandles_of_separated (hP : P.WellFormed) (hseparated : P.Separated) :
    (P.separateHandles : Outcome ScheduleError (Nat × Program)) = .ok (0, P) := by
  obtain ⟨binders, hbinders, hmem⟩ := exists_listedBinders hP
  obtain ⟨listing, hlist⟩ := hP.exists_listing (ε := ScheduleError)
  rw [separateHandles, hbinders, Outcome.ok_bind]
  have hlisted : ∀ binder ∈ binders, P.ListsBinder binder := fun binder => (hmem binder).mp
  clear hbinders hmem
  induction binders with
  | nil => rfl
  | cons binder rest ih =>
    obtain ⟨hhead, htail⟩ := List.forall_mem_cons.mp hlisted
    obtain ⟨calls, hcalls, hreached⟩ := exists_callsReached hP hlist hhead
    refine Outcome.foldlM_cons_eq_ok.mpr ⟨(0, P), ?_, ih htail⟩
    rw [separateBinder, hlist, Outcome.ok_bind, hcalls, Outcome.ok_bind]
    refine rewireCalls_of_foreign hP (fun call hdrop => ?_) 0
    obtain ⟨hin, first, hfirst, hlt⟩ := IdSet.mem_drop_one_iff.mp hdrop
    have hreaches := (hreached call).mp hin
    exact ⟨hreaches.listsCall, hseparated ((hreached first).mp hfirst) hreaches hlt⟩

/-- Where every binder reaches one call at most, separation has nothing to do. -/
theorem separateHandles_of_reachesOne (hP : P.WellFormed) (hone : ∀ binder, P.ReachesOne binder) :
    (P.separateHandles : Outcome ScheduleError (Nat × Program)) = .ok (0, P) :=
  separateHandles_of_separated hP fun binder _ _ hfirst hcall hlt =>
    absurd (hone binder hfirst hcall) (Nat.ne_of_lt hlt)

/-! ### When nothing has been done -/

/-- If the count stays as it is, no call has got a handle of its own, because none could. -/
theorem rewireCalls_same (hP : P.WellFormed) {calls : List NodeId}
    (hcalls : ∀ call ∈ calls, P.ListsCall call) {count : Nat}
    (hrewire : (rewireCalls (count, P) calls : Outcome ScheduleError (Nat × Program))
      = .ok (count, Q)) : Q = P ∧ ∀ call ∈ calls, ¬ P.OwnsHandle call := by
  induction calls with
  | nil =>
    obtain ⟨-, rfl⟩ := Prod.mk.inj (Except.ok.inj hrewire)
    exact ⟨rfl, List.forall_mem_nil _⟩
  | cons call rest ih =>
    obtain ⟨⟨rewired, middle⟩, hfirst, hrest⟩ := Outcome.bind_eq_ok.mp hrewire
    obtain ⟨⟨listed, hlists, rfl, hcall⟩, hlisted⟩ := List.forall_mem_cons.mp hcalls
    rcases rewireCall_eq_ok hP hlists hcall hfirst with
      ⟨r, hr, -, rfl, rfl⟩ | ⟨rfl, rfl, listing, hlist, hnone⟩
    · have hle : count + 1 ≤ count := rewireCalls_keeps (fun reached _ => count + 1 ≤ reached)
        (fun _ _ _ _ _ hle => Nat.le_succ_of_le hle) (Rewiring.wellFormed_after hP hr)
        (fun call hmem => listsCall_after hP hr (hlisted call hmem)) (Nat.le_refl _) hrest
      exact absurd hle (Nat.not_succ_le_self count)
    · obtain ⟨rfl, hothers⟩ := ih hlisted hrest
      obtain ⟨handle, hhead⟩ := hP.exists_handle hlists hcall
      refine ⟨rfl, List.forall_mem_cons.mpr ⟨fun howns => ?_, hothers⟩⟩
      obtain ⟨source, hmade⟩ := (ownsHandle_iff hP hlists hcall hhead).mp howns
      exact hnone handle hhead source ((madeBy_iff hlist).mp hmade)

theorem separateBinder_same (hP : P.WellFormed) {binder : NodeId} (hbinder : P.ListsBinder binder)
    {count : Nat}
    (hseparate : (separateBinder (count, P) binder : Outcome ScheduleError (Nat × Program))
      = .ok (count, Q)) :
    Q = P ∧ ∀ first call, P.Reaches binder first → P.Reaches binder call → first < call →
      ¬ P.OwnsHandle call := by
  obtain ⟨listing, hlist, hseparate⟩ := Outcome.bind_eq_ok.mp hseparate
  obtain ⟨calls, hcalls, hrewire⟩ := Outcome.bind_eq_ok.mp hseparate
  obtain ⟨calls', hcalls', hreached⟩ := exists_callsReached hP hlist hbinder
  obtain rfl := Except.ok.inj (hcalls.symm.trans hcalls')
  obtain ⟨hsame, hforeign⟩ := rewireCalls_same hP
    (fun call hdrop => ((hreached call).mp (List.mem_of_mem_drop hdrop)).listsCall) hrewire
  refine ⟨hsame, fun first call hone htwo hlt => hforeign call (IdSet.mem_drop_one_iff.mpr ?_)⟩
  exact ⟨(hreached call).mpr htwo, first, (hreached first).mpr hone, hlt⟩

theorem separateBinders_same (hP : P.WellFormed) {binders : List NodeId}
    (hbinders : ∀ binder ∈ binders, P.ListsBinder binder) {count : Nat}
    (hfold : (binders.foldlM separateBinder (count, P) : Outcome ScheduleError (Nat × Program))
      = .ok (count, Q)) :
    ∀ binder ∈ binders, ∀ first call, P.Reaches binder first → P.Reaches binder call →
      first < call → ¬ P.OwnsHandle call := by
  induction binders with
  | nil => exact List.forall_mem_nil _
  | cons binder rest ih =>
    obtain ⟨⟨reached, middle⟩, hfirst, hrest⟩ := Outcome.foldlM_cons_eq_ok.mp hfold
    obtain ⟨hhead, htail⟩ := List.forall_mem_cons.mp hbinders
    have hseparates := separateBinder_separates hP hhead hfirst
    -- The count only grows, so the first binder has not changed it either.
    have hge : count ≤ reached := separateBinder_keeps (fun reached _ => count ≤ reached)
      (fun _ _ _ _ _ hle => Nat.le_succ_of_le hle) hP hhead (Nat.le_refl _) hfirst
    have hle : reached ≤ count := separateBinders_keeps (fun last _ => reached ≤ last)
      (fun _ _ _ _ _ hle => Nat.le_succ_of_le hle) (hseparates.wellFormed hP)
      (fun binder hmem => hseparates.listsBinder hP (htail binder hmem)) (Nat.le_refl _) hrest
    obtain rfl := Nat.le_antisymm hge hle
    obtain ⟨rfl, hforeign⟩ := separateBinder_same hP hhead hfirst
    exact List.forall_mem_cons.mpr ⟨hforeign, ih htail hrest⟩

theorem separated_of_separateHandles (hP : P.WellFormed)
    (hseparate : (P.separateHandles : Outcome ScheduleError (Nat × Program)) = .ok (0, Q)) :
    P.Separated := by
  obtain ⟨binders, hbinders, hfold⟩ := Outcome.bind_eq_ok.mp hseparate
  obtain ⟨binders', hbinders', hmem⟩ := exists_listedBinders hP
  obtain rfl := Except.ok.inj (hbinders.symm.trans hbinders')
  intro binder first call hone htwo hlt
  exact separateBinders_same hP (fun binder => (hmem binder).mp) hfold binder
    ((hmem binder).mpr hone.listsBinder) first call hone htwo hlt

theorem separateHandles_eq_self_iff (hP : P.WellFormed) :
    (P.separateHandles : Outcome ScheduleError (Nat × Program)) = .ok (0, P) ↔ P.Separated :=
  ⟨separated_of_separateHandles hP, separateHandles_of_separated hP⟩

theorem separated_after_iff (hP : P.WellFormed) {count : Nat}
    (hseparate : (P.separateHandles : Outcome ScheduleError (Nat × Program)) = .ok (count, Q)) :
    Q.Separated
      ↔ ∀ binder first call, Q.Reaches binder first → P.ReachesIn binder call → call ≤ first := by
  have hQ := (separateHandles_separates hP hseparate).wellFormed hP
  obtain ⟨hthins, hleft⟩ := separateHandles_thins hP hseparate
  constructor
  · intro hseparated binder first call hfirst hin
    have hin' := (hthins.reachesIn_iff (hin.reaches hP).listsBinder.lt).mpr hin
    exact Nat.not_lt.mp fun hlt =>
      hseparated hfirst (hin'.reaches hQ) hlt (hthins.ownsHandle_iff.mpr hin.ownsHandle)
  · intro hnone binder first call hfirst hcall hlt howns
    have hin := hleft binder first call hfirst hcall hlt (hthins.ownsHandle_iff.mp howns)
    exact absurd hlt (Nat.not_lt.mpr (hnone binder first call hfirst hin))

/-- Where no switch picks from a handle that its subgraph does not make, separating twice is separating
once. Calls may still read handles of other subgraphs. -/
theorem separateHandles_twice (hP : P.WellFormed) (hown : P.OwnBranches) {count : Nat}
    (hseparate : (P.separateHandles : Outcome ScheduleError (Nat × Program)) = .ok (count, Q)) :
    (Q.separateHandles : Outcome ScheduleError (Nat × Program)) = .ok (0, Q) := by
  refine separateHandles_of_separated ((separateHandles_separates hP hseparate).wellFormed hP) ?_
  refine (separated_after_iff hP hseparate).mpr fun binder first call _ hin => ?_
  exact absurd hin (hown.not_reachesIn hP)

end Program

open Program

/-- A second separation leaves the program as it is and counts nothing if and only if no binder whose
handle comes in from elsewhere for a call still reaches, after the first separation, a call before it. -/
theorem separateHandles_again {P Q : Program} (hvalid : P.validate = .ok ()) {count : Nat}
    (hseparate : (P.separateHandles : Outcome ScheduleError (Nat × Program)) = .ok (count, Q)) :
    (Q.separateHandles : Outcome ScheduleError (Nat × Program)) = .ok (0, Q)
      ↔ ∀ binder first call, Q.Reaches binder first → P.ReachesIn binder call → call ≤ first := by
  have hP := wellFormed_of_validate hvalid
  rw [separateHandles_eq_self_iff ((separateHandles_separates hP hseparate).wellFormed hP)]
  exact separated_after_iff hP hseparate

/-- Two calls of a handle that a switch picks, and the binder that it picks stands in another subgraph. -/
def strayHandle : Program where
  tensors := #["condition", "handle", "picked", "y", "z", "given", "argument", "result"].map
    fun name => ⟨name, [], .f32, none⟩
  nodes := #[⟨"pick", .switch, [0, 1, 1], [2]⟩, ⟨"first", .call, [2], [3]⟩,
    ⟨"second", .call, [2], [4]⟩, ⟨"bind", .bind 2, [5], [1]⟩, ⟨"pass", .kernel .copy, [6], [7]⟩]
  subgraphs := #[⟨"main", .body, [0], [4], [0, 1, 2]⟩, ⟨"other", .body, [5], [5], [3]⟩,
    ⟨"body", .body, [6], [7], [4]⟩]
  order := [0, 1, 2]
  entry := 0
  outputs := [4]
  links := .empty

/-- The binder still reaches the first call, and its handle comes in for the second one. -/
theorem strayHandle_comesIn : strayHandle.validate = .ok ()
    ∧ ∃ Q, strayHandle.separateHandles (ε := ScheduleError) = .ok (1, Q)
      ∧ ∃ binder first call, Q.Reaches binder first ∧ strayHandle.ReachesIn binder call
        ∧ first < call := by
  have hvalid : strayHandle.validate = .ok () := by decide +kernel
  obtain ⟨⟨count, Q⟩, hseparate, hcount, hagain⟩ := Outcome.exists_of_holds
    (fun answer : Nat × Program => answer.1 = 1 ∧ Outcome.holds
      ((answer.2.separateHandles (ε := ScheduleError)).map fun again => decide (again.1 ≠ 0)))
    (by decide +kernel : Outcome.holds ((strayHandle.separateHandles (ε := ScheduleError)).map _)
      = true)
  obtain rfl : count = 1 := hcount
  have hmore : Q.separateHandles (ε := ScheduleError) ≠ .ok (0, Q) := by
    intro hnothing
    rw [hnothing] at hagain
    exact nomatch hagain
  rw [Ne, separateHandles_again hvalid hseparate] at hmore
  push Not at hmore
  exact ⟨hvalid, Q, hseparate, hmore⟩

/-- The second separation copies the switch once more for the second call. -/
theorem strayHandle_repeats : strayHandle.validate = .ok ()
    ∧ ∃ Q R, strayHandle.separateHandles (ε := ScheduleError) = .ok (1, Q)
      ∧ Q.separateHandles (ε := ScheduleError) = .ok (1, R) ∧ R ≠ Q := by
  obtain ⟨⟨count, Q⟩, hseparate, hcount, hagain⟩ := Outcome.exists_of_holds
    (fun answer : Nat × Program => answer.1 = 1 ∧ Outcome.holds
      ((answer.2.separateHandles (ε := ScheduleError)).map fun again =>
        decide (again.1 = 1 ∧ again.2.nodes.size ≠ answer.2.nodes.size)))
    (by decide +kernel : Outcome.holds ((strayHandle.separateHandles (ε := ScheduleError)).map _)
      = true)
  obtain ⟨⟨count', R⟩, hseparate', hcount', hsize⟩ := Outcome.exists_of_holds
    (fun again : Nat × Program => again.1 = 1 ∧ again.2.nodes.size ≠ Q.nodes.size) hagain
  obtain rfl : count = 1 := hcount
  obtain rfl : count' = 1 := hcount'
  refine ⟨by decide +kernel, Q, R, hseparate, hseparate', fun hsame => hsize ?_⟩
  rw [hsame]

end TailFlow
