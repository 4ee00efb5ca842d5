import Mathlib.Data.List.Nodup
import TailFlow.Proofs.Boundary.Entrances

/-!
# Grouping callers

The groups of the callers of a body hold the live callers, each once, and the destination of a group
is where the call that a caller in it reaches writes to. `Grouped` says so for the callers that have
been looked at so far, and adding one more caller keeps it; as the callers are looked at in ascending
order, the groups and their members ascend too. The first caller that reaches several calls ends the
walk with a refusal.
-/

namespace TailFlow

open Program

/-- A binder reaches a call. -/
def Program.Live (P : Program) (binder : NodeId) : Prop := ∃ call, P.Reaches binder call

theorem Program.Serves.live {P : Program} {binder : NodeId} {destination : List TensorId}
    (hserves : P.Serves binder destination) : P.Live binder :=
  hserves.imp fun _ ⟨_, hreaches, _⟩ => hreaches

namespace CallerGroup

variable {sharing : ExitSharing} {destination : List TensorId} {caller : NodeId}
  {groups : List CallerGroup}

/-- A caller is added behind the callers of the one group that it may join, or it makes a group of its
own behind the others. -/
theorem add_cases (sharing : ExitSharing) (destination : List TensorId) (caller : NodeId)
    (groups : List CallerGroup) : (sharing = .byDestination ∧ ∃ before group after,
      groups = before ++ group :: after ∧ group.destination = destination
        ∧ add sharing destination caller groups
          = before ++ { group with callers := group.callers ++ [caller] } :: after)
    ∨ ((sharing = .byDestination → ∀ group ∈ groups, group.destination ≠ destination)
      ∧ add sharing destination caller groups = groups ++ [⟨destination, [caller]⟩]) := by
  cases sharing with
  | perCaller => exact .inr ⟨nofun, rfl⟩
  | byDestination =>
    show _ ∨ _ ∧ join destination caller groups = _
    induction groups with
    | nil => exact .inr ⟨fun _ => List.forall_mem_nil _, rfl⟩
    | cons head rest ih =>
      by_cases hsame : head.destination = destination
      · refine .inl ⟨rfl, [], head, rest, rfl, hsame, ?_⟩
        exact if_pos hsame
      · have hjoin : join destination caller (head :: rest)
            = head :: join destination caller rest := if_neg hsame
        rcases ih with ⟨-, before, group, after, rfl, hgroup, hadd⟩ | ⟨hnone, hadd⟩
        · exact .inl ⟨rfl, head :: before, group, after, rfl, hgroup, hjoin.trans (congrArg _ hadd)⟩
        · refine .inr ⟨fun _ => List.forall_mem_cons.mpr ⟨hsame, hnone rfl⟩, ?_⟩
          exact hjoin.trans (congrArg _ hadd)

theorem perm_add : ((add sharing destination caller groups).flatMap CallerGroup.callers).Perm
    (caller :: groups.flatMap CallerGroup.callers) := by
  rcases add_cases sharing destination caller groups with ⟨-, before, group, after, rfl, -, hadd⟩ | ⟨-, hadd⟩
  · simp only [hadd, List.flatMap_append, List.flatMap_cons, List.append_assoc,
      List.singleton_append]
    rw [← List.append_assoc, ← List.append_assoc]
    exact List.perm_middle
  · simp only [hadd, List.flatMap_append, List.flatMap_singleton]
    exact List.perm_append_singleton _ _

/-- Where a caller is added, the destination of the group is the one of the caller. -/
theorem mem_add {group : CallerGroup} (hmem : group ∈ add sharing destination caller groups) :
    group ∈ groups ∨ (group.destination = destination ∧ ∃ earlier : List NodeId,
      group.callers = earlier ++ [caller]
        ∧ ∀ other ∈ earlier, ∃ old ∈ groups, old.destination = destination
          ∧ other ∈ old.callers) := by
  rcases add_cases sharing destination caller groups with ⟨-, before, old, after, rfl, hsame, hadd⟩ | ⟨-, hadd⟩
  · rw [hadd, List.mem_append, List.mem_cons] at hmem
    rcases hmem with hbefore | rfl | hafter
    · exact .inl (List.mem_append_left _ hbefore)
    · exact .inr ⟨hsame, old.callers, rfl, fun other hother => ⟨old, by simp, hsame, hother⟩⟩
    · exact .inl (List.mem_append_right _ (.tail _ hafter))
  · rw [hadd, List.mem_append, List.mem_singleton] at hmem
    rcases hmem with hold | rfl
    · exact .inl hold
    · exact .inr ⟨rfl, [], rfl, List.forall_mem_nil _⟩

/-- Which callers are grouped together: those with one destination, or each caller alone. -/
def Shared : ExitSharing → List CallerGroup → Prop
  | .byDestination, groups => (groups.map CallerGroup.destination).Nodup
  | .perCaller, groups => ∀ group ∈ groups, ∃ caller, group.callers = [caller]

theorem shared_nil : Shared sharing [] := by
  cases sharing with
  | byDestination => exact List.nodup_nil
  | perCaller => exact List.forall_mem_nil _

theorem Shared.add (h : Shared sharing groups) :
    Shared sharing (add sharing destination caller groups) := by
  rcases add_cases sharing destination caller groups with ⟨rfl, before, group, after, rfl, -, hadd⟩ | ⟨hnone, hadd⟩
  · rw [hadd]
    simpa [Shared] using h
  · rw [hadd]
    cases sharing with
    | byDestination =>
      show ((groups ++ [_]).map CallerGroup.destination).Nodup
      rw [List.map_append, List.map_singleton, ← List.concat_eq_append]
      refine List.Nodup.concat (fun hmem => ?_) h
      obtain ⟨group, hgroup, hsame⟩ := List.mem_map.mp hmem
      exact hnone rfl group hgroup hsame
    | perCaller =>
      intro group hgroup
      rcases List.mem_append.mp hgroup with hold | hnew
      · exact h group hold
      · exact ⟨caller, by rw [List.mem_singleton.mp hnew]⟩

/-- The first caller of a group comes before the first caller of another one. -/
def Precedes (earlier later : CallerGroup) : Prop :=
  ∃ first ∈ earlier.callers.head?, ∃ second ∈ later.callers.head?, first < second

/-- The callers of a group ascend, and so do the groups by their first callers. -/
structure InOrder (groups : List CallerGroup) : Prop where
  callers : ∀ group ∈ groups, group.callers.Pairwise (· < ·)
  groups : groups.Pairwise Precedes

theorem InOrder.nil : InOrder [] := ⟨List.forall_mem_nil _, .nil⟩

theorem InOrder.add (h : InOrder groups) (hnonempty : ∀ group ∈ groups, group.callers ≠ [])
    (habove : ∀ group ∈ groups, ∀ other ∈ group.callers, other < caller) :
    InOrder (add sharing destination caller groups) := by
  rcases add_cases sharing destination caller groups with ⟨-, before, group, after, rfl, -, hadd⟩ | ⟨-, hadd⟩
  · have hgroup : group ∈ before ++ group :: after := by simp
    have hhead : (group.callers ++ [caller]).head? = group.callers.head? :=
      List.head?_append_of_ne_nil _ (hnonempty group hgroup)
    have hleft (other : CallerGroup) :
        Precedes ⟨group.destination, group.callers ++ [caller]⟩ other ↔ Precedes group other := by
      rw [Precedes, hhead, Precedes]
    have hright (other : CallerGroup) :
        Precedes other ⟨group.destination, group.callers ++ [caller]⟩ ↔ Precedes other group := by
      rw [Precedes, hhead, Precedes]
    rw [hadd]
    constructor
    · intro other hother
      rcases List.mem_append.mp hother with hbefore | hrest
      · exact h.callers other (List.mem_append_left _ hbefore)
      · rcases List.mem_cons.mp hrest with rfl | hafter
        · refine List.pairwise_append.mpr ⟨h.callers group hgroup, List.pairwise_singleton _ _, ?_⟩
          intro first hfirst last hlast
          exact List.mem_singleton.mp hlast ▸ habove group hgroup first hfirst
        · exact h.callers other (List.mem_append_right _ (.tail _ hafter))
    · have hold := h.groups
      simp only [List.pairwise_append, List.pairwise_cons, List.mem_cons, forall_eq_or_imp, hleft,
        hright] at hold ⊢
      exact hold
  · rw [hadd]
    constructor
    · intro group hgroup
      rcases List.mem_append.mp hgroup with hold | hnew
      · exact h.callers group hold
      · rw [List.mem_singleton.mp hnew]
        exact List.pairwise_singleton _ _
    · refine List.pairwise_append.mpr ⟨h.groups, List.pairwise_singleton _ _, ?_⟩
      intro group hgroup last hlast
      have hfirst := List.head?_eq_some_head (hnonempty group hgroup)
      rw [List.mem_singleton.mp hlast]
      exact ⟨_, hfirst, caller, rfl, habove group hgroup _ (List.mem_of_head? hfirst)⟩

end CallerGroup

namespace Program

variable {P : Program} {listing : List ListedNode} {body : SubgraphId} {sharing : ExitSharing}

/-- What the groups are of the callers that have been looked at. -/
structure Grouped (P : Program) (looked : List NodeId) (groups : List CallerGroup) : Prop where
  nonempty : ∀ group ∈ groups, group.callers ≠ []
  serves : ∀ group ∈ groups, ∀ caller ∈ group.callers, P.Serves caller group.destination
  mem_iff : ∀ caller, caller ∈ groups.flatMap CallerGroup.callers
    ↔ caller ∈ looked ∧ P.Live caller
  nodup : (groups.flatMap CallerGroup.callers).Nodup
  inOrder : CallerGroup.InOrder groups

theorem Grouped.nil (P : Program) : P.Grouped [] [] :=
  ⟨List.forall_mem_nil _, List.forall_mem_nil _, fun caller => by simp, .nil, .nil⟩

theorem Grouped.lt (hP : P.WellFormed) {looked : List NodeId} {groups : List CallerGroup}
    (h : P.Grouped looked groups) (hlooked : ∀ caller ∈ looked, caller < P.nodes.size) :
    ∀ group ∈ groups, (∀ tensor ∈ group.destination, tensor < P.tensors.size)
      ∧ ∀ caller ∈ group.callers, caller < P.nodes.size := by
  intro group hgroup
  refine ⟨fun tensor htensor => ?_, fun caller hcaller => ?_⟩
  · obtain ⟨caller, hcaller⟩ := List.exists_mem_of_ne_nil _ (h.nonempty group hgroup)
    exact (h.serves group hgroup caller hcaller).lt hP htensor
  · exact hlooked caller ((h.mem_iff caller).mp (List.mem_flatMap.mpr ⟨group, hgroup, hcaller⟩)).1

theorem Grouped.dead {looked : List NodeId} {groups : List CallerGroup}
    (h : P.Grouped looked groups) {caller : NodeId} (hdead : ¬ P.Live caller) :
    P.Grouped (looked ++ [caller]) groups where
  nonempty := h.nonempty
  serves := h.serves
  mem_iff := by
    intro other
    rw [h.mem_iff, List.mem_append, List.mem_singleton]
    constructor
    · intro ⟨hlooked, hlive⟩
      exact ⟨.inl hlooked, hlive⟩
    · intro ⟨hlooked, hlive⟩
      refine ⟨hlooked.resolve_right fun hsame => ?_, hlive⟩
      exact hdead (hsame ▸ hlive)
  nodup := h.nodup
  inOrder := h.inOrder

theorem Grouped.add {looked : List NodeId} {groups : List CallerGroup} (h : P.Grouped looked groups)
    {caller : NodeId} {destination : List TensorId} (habove : ∀ other ∈ looked, other < caller)
    (hserves : P.Serves caller destination) :
    P.Grouped (looked ++ [caller]) (CallerGroup.add sharing destination caller groups) where
  nonempty := by
    intro group hgroup
    rcases CallerGroup.mem_add hgroup with hold | ⟨-, earlier, hcallers, -⟩
    · exact h.nonempty group hold
    · rw [hcallers]
      simp
  serves := by
    intro group hgroup other hother
    rcases CallerGroup.mem_add hgroup with hold | ⟨hsame, earlier, hcallers, hall⟩
    · exact h.serves group hold other hother
    · rw [hcallers, List.mem_append, List.mem_singleton] at hother
      rcases hother with hearlier | rfl
      · obtain ⟨old, hold, hdestination, hin⟩ := hall other hearlier
        have hbefore := h.serves old hold other hin
        rwa [hdestination, ← hsame] at hbefore
      · rwa [hsame]
  mem_iff := by
    intro other
    have hlive := hserves.live
    rw [CallerGroup.perm_add.mem_iff, List.mem_cons, h.mem_iff, List.mem_append,
      List.mem_singleton, or_and_right, or_comm]
    exact or_congr_right ⟨fun hsame => ⟨hsame, hsame ▸ hlive⟩, fun hboth => hboth.1⟩
  nodup := by
    rw [CallerGroup.perm_add.nodup_iff, List.nodup_cons]
    exact ⟨fun hmem => Nat.lt_irrefl _ (habove caller ((h.mem_iff caller).mp hmem).1), h.nodup⟩
  inOrder := by
    refine h.inOrder.add h.nonempty fun group hgroup other hother => ?_
    exact habove other ((h.mem_iff other).mp (List.mem_flatMap.mpr ⟨group, hgroup, hother⟩)).1

/-! ### Where one caller goes -/

theorem destinationCall_eq (hP : P.WellFormed)
    (hlist : (P.listing : Outcome ScheduleError (List ListedNode)) = .ok listing) {binder : NodeId}
    (hbinder : P.ListsBinder binder) :
    ∃ calls : IdSet, (∀ call, call ∈ calls ↔ P.Reaches binder call)
      ∧ P.destinationCall listing binder = match calls.members with
        | [] => .ok none
        | [call] => .ok (some call)
        | several => .error (.refused (.ambiguousBinder binder several.length)) := by
  obtain ⟨calls, hcalls, hreached⟩ := exists_callsReached hP hlist hbinder
  refine ⟨calls, hreached, ?_⟩
  unfold destinationCall
  rw [hcalls, Outcome.ok_bind]
  rfl

theorem destinationCall_eq_ok (hP : P.WellFormed)
    (hlist : (P.listing : Outcome ScheduleError (List ListedNode)) = .ok listing) {binder : NodeId}
    (hbinder : P.ListsBinder binder) {answer : Option NodeId}
    (hfind : P.destinationCall listing binder = .ok answer) :
    (answer = none ∧ ¬ P.Live binder) ∨ ∃ call, answer = some call ∧ P.Reaches binder call
      ∧ ∀ other, P.Reaches binder other → other = call := by
  obtain ⟨calls, hreached, hverdict⟩ := destinationCall_eq hP hlist hbinder
  have hmem (call : NodeId) : call ∈ calls.members ↔ P.Reaches binder call := hreached call
  rw [hverdict] at hfind
  split at hfind
  · rename_i hnone
    refine .inl ⟨(Except.ok.inj hfind).symm, fun ⟨call, hreaches⟩ => ?_⟩
    have := (hmem call).mpr hreaches
    simp [hnone] at this
  · rename_i call hone
    refine .inr ⟨call, (Except.ok.inj hfind).symm, (hmem call).mp (by simp [hone]),
      fun other hreaches => ?_⟩
    simpa [hone] using (hmem other).mpr hreaches
  · exact nomatch hfind

/-- The refusal of a binder that reaches several calls. -/
def IsAmbiguous (stop : Stop ScheduleError) : Prop :=
  ∃ binder calls, stop = .refused (.ambiguousBinder binder calls)

theorem destinationCall_ends (hP : P.WellFormed)
    (hlist : (P.listing : Outcome ScheduleError (List ListedNode)) = .ok listing) {binder : NodeId}
    (hbinder : P.ListsBinder binder) :
    Outcome.Ends (fun _ => True) IsAmbiguous (P.destinationCall listing binder) := by
  obtain ⟨calls, -, hverdict⟩ := destinationCall_eq hP hlist hbinder
  rw [hverdict]
  split
  · trivial
  · trivial
  · exact ⟨binder, _, rfl⟩

/-- A binder that does not reach several calls has its destination found. -/
theorem exists_destinationCall (hP : P.WellFormed)
    (hlist : (P.listing : Outcome ScheduleError (List ListedNode)) = .ok listing) {binder : NodeId}
    (hbinder : P.ListsBinder binder) (hone : P.ReachesOne binder) :
    ∃ answer, P.destinationCall listing binder = .ok answer := by
  obtain ⟨calls, hreached, hverdict⟩ := destinationCall_eq hP hlist hbinder
  have hsize : calls.members.length ≤ 1 := IdSet.size_le_one_iff.mpr
    fun first hfirst second hsecond => hone ((hreached first).mp hfirst) ((hreached second).mp hsecond)
  match hmembers : calls.members with
  | [] => exact ⟨none, by rw [hverdict, hmembers]⟩
  | [call] => exact ⟨some call, by rw [hverdict, hmembers]⟩
  | _ :: _ :: _ =>
    rw [hmembers] at hsize
    simp at hsize

/-- A binder that reaches several calls is refused, and the refusal tells how many they are. -/
theorem destinationCall_eq_refuse (hP : P.WellFormed)
    (hlist : (P.listing : Outcome ScheduleError (List ListedNode)) = .ok listing) {binder : NodeId}
    (hbinder : P.ListsBinder binder) (hseveral : ¬ P.ReachesOne binder) :
    ∃ calls : IdSet, (∀ call, call ∈ calls ↔ P.Reaches binder call) ∧ 2 ≤ calls.size
      ∧ P.destinationCall listing binder
        = .error (.refused (.ambiguousBinder binder calls.size)) := by
  obtain ⟨calls, hreached, hverdict⟩ := destinationCall_eq hP hlist hbinder
  have hsize : 1 < calls.size := by
    refine Nat.not_le.mp fun hle => hseveral fun first second hfirst hsecond => ?_
    exact IdSet.size_le_one_iff.mp hle first ((hreached first).mpr hfirst) second
      ((hreached second).mpr hsecond)
  refine ⟨calls, hreached, hsize, ?_⟩
  have hlength : 1 < calls.members.length := hsize
  rw [hverdict]
  split
  · rename_i hnone
    simp [hnone] at hlength
  · rename_i call hone
    simp [hone] at hlength
  · rfl

theorem serves_of_reaches {binder call : NodeId} (hreaches : P.Reaches binder call)
    (hone : ∀ other, P.Reaches binder other → other = call) {node : Node}
    (hnode : P.nodes[call]? = some node) : P.Serves binder node.outputs :=
  ⟨call, node, hreaches, hone, hnode, rfl⟩

/-! ### All callers -/

open Classical in
noncomputable def deadAmong (P : Program) (callers : List NodeId) : List NodeId :=
  callers.filter fun caller => decide (¬ P.Live caller)

theorem mem_deadAmong {callers : List NodeId} {caller : NodeId} :
    caller ∈ P.deadAmong callers ↔ caller ∈ callers ∧ ¬ P.Live caller := by
  simp [deadAmong]

theorem groupCaller_eq_ok (hP : P.WellFormed)
    (hlist : (P.listing : Outcome ScheduleError (List ListedNode)) = .ok listing)
    {caller : NodeId} (hcaller : P.ListsBinder caller) {looked : List NodeId}
    (habove : ∀ other ∈ looked, other < caller)
    {state answer : List CallerGroup × List ScheduleWarning} (hstate : P.Grouped looked state.1)
    (hgroup : P.groupCaller listing sharing body state caller = .ok answer) :
    P.Grouped (looked ++ [caller]) answer.1
      ∧ answer.2 = state.2 ++ (P.deadAmong [caller]).map (.deadCaller · body) := by
  obtain ⟨found, hfind, hbody⟩ := Outcome.bind_eq_ok.mp hgroup
  rcases destinationCall_eq_ok hP hlist hcaller hfind with ⟨rfl, hdead⟩ | ⟨call, rfl, hreaches, hone⟩
  · obtain rfl := Outcome.pure_eq_ok.mp hbody
    exact ⟨hstate.dead hdead, by simp [deadAmong, hdead]⟩
  · obtain ⟨node, hnode, hpure⟩ := Outcome.bind_eq_ok.mp hbody
    obtain rfl := Outcome.pure_eq_ok.mp hpure
    have hlive : P.Live caller := ⟨call, hreaches⟩
    exact ⟨hstate.add habove (serves_of_reaches hreaches hone (node_eq_ok.mp hnode)),
      by simp [deadAmong, hlive]⟩

theorem groupCallers_fold (hP : P.WellFormed)
    (hlist : (P.listing : Outcome ScheduleError (List ListedNode)) = .ok listing)
    {callers looked : List NodeId} (hcallers : ∀ caller ∈ callers, P.ListsBinder caller)
    (hascending : (looked ++ callers).Pairwise (· < ·))
    {state answer : List CallerGroup × List ScheduleWarning} (hstate : P.Grouped looked state.1)
    (hfold : callers.foldlM (P.groupCaller listing sharing body) state = .ok answer) :
    P.Grouped (looked ++ callers) answer.1
      ∧ answer.2 = state.2 ++ (P.deadAmong callers).map (.deadCaller · body) := by
  induction callers generalizing looked state with
  | nil =>
    obtain rfl := Outcome.foldlM_nil_eq_ok.mp hfold
    simpa [deadAmong] using hstate
  | cons caller rest ih =>
    obtain ⟨middle, hfirst, hrest⟩ := Outcome.foldlM_cons_eq_ok.mp hfold
    obtain ⟨hhead, htail⟩ := List.forall_mem_cons.mp hcallers
    have habove : ∀ other ∈ looked, other < caller := fun other hother =>
      (List.pairwise_append.mp hascending).2.2 other hother caller List.mem_cons_self
    obtain ⟨hmiddle, hwarned⟩ := groupCaller_eq_ok hP hlist hhead habove hstate hfirst
    have happend : looked ++ caller :: rest = looked ++ [caller] ++ rest := by simp
    rw [happend] at hascending ⊢
    obtain ⟨hgrouped, hothers⟩ := ih htail hascending hmiddle hrest
    refine ⟨hgrouped, ?_⟩
    rw [hothers, hwarned, List.append_assoc, ← List.map_append]
    unfold deadAmong
    rw [← List.filter_append, List.singleton_append]

theorem groupCallers_eq_ok (hP : P.WellFormed) {callers : IdSet}
    (hcallers : ∀ caller ∈ callers, P.ListsBinder caller)
    {answer : List CallerGroup × List ScheduleWarning}
    (hgroup : P.groupCallers sharing body callers = .ok answer) :
    P.Grouped callers.members answer.1
      ∧ answer.2 = (P.deadAmong callers.members).map (.deadCaller · body) := by
  obtain ⟨listing, hlist, hfold⟩ := Outcome.bind_eq_ok.mp hgroup
  have hascending : ([] ++ callers.members).Pairwise (· < ·) := callers.ascending
  exact groupCallers_fold hP hlist hcallers hascending (.nil P) hfold

theorem groupCallers_shared {callers : IdSet} {answer : List CallerGroup × List ScheduleWarning}
    (hgroup : P.groupCallers sharing body callers = .ok answer) :
    CallerGroup.Shared sharing answer.1 := by
  obtain ⟨listing, -, hfold⟩ := Outcome.bind_eq_ok.mp hgroup
  refine Outcome.foldlM_keeps (fun state : List CallerGroup × List ScheduleWarning =>
    CallerGroup.Shared sharing state.1) (fun state caller next _ hstate hstep => ?_)
    CallerGroup.shared_nil hfold
  obtain ⟨found, -, hbody⟩ := Outcome.bind_eq_ok.mp hstep
  cases found with
  | none =>
    obtain rfl := Outcome.pure_eq_ok.mp hbody
    exact hstate
  | some call =>
    obtain ⟨node, -, hpure⟩ := Outcome.bind_eq_ok.mp hbody
    obtain rfl := Outcome.pure_eq_ok.mp hpure
    exact hstate.add

theorem exists_groupCaller (hP : P.WellFormed)
    (hlist : (P.listing : Outcome ScheduleError (List ListedNode)) = .ok listing) {caller : NodeId}
    (hcaller : P.ListsBinder caller) {found : Option NodeId}
    (hfind : P.destinationCall listing caller = .ok found)
    (state : List CallerGroup × List ScheduleWarning) :
    ∃ answer, P.groupCaller listing sharing body state caller = .ok answer := by
  unfold groupCaller
  rw [hfind, Outcome.ok_bind]
  rcases destinationCall_eq_ok hP hlist hcaller hfind with ⟨rfl, -⟩ | ⟨call, rfl, hreaches, -⟩
  · exact ⟨_, rfl⟩
  · obtain ⟨listed, ⟨subgraph, -, -, hnode⟩, rfl, -⟩ := hreaches.listsCall
    dsimp only
    rw [node_eq_ok.mpr hnode, Outcome.ok_bind]
    exact ⟨_, rfl⟩

theorem groupCaller_ends (hP : P.WellFormed)
    (hlist : (P.listing : Outcome ScheduleError (List ListedNode)) = .ok listing) {caller : NodeId}
    (hcaller : P.ListsBinder caller) (state : List CallerGroup × List ScheduleWarning) :
    Outcome.Ends (fun _ => True) IsAmbiguous (P.groupCaller listing sharing body state caller) := by
  rcases (destinationCall_ends hP hlist hcaller).cases with ⟨found, hfind, -⟩ | ⟨stop, hstop, hwhy⟩
  · obtain ⟨answer, hanswer⟩ := exists_groupCaller hP hlist hcaller hfind state
    rw [hanswer]
    trivial
  · unfold groupCaller
    rw [hstop]
    exact hwhy

/-- Grouping ends with the groups, unless a caller reaches several calls. -/
theorem groupCallers_ends (hP : P.WellFormed) {callers : IdSet}
    (hcallers : ∀ caller ∈ callers, P.ListsBinder caller) :
    Outcome.Ends (fun _ => True) IsAmbiguous (P.groupCallers sharing body callers) := by
  obtain ⟨listing, hlist⟩ := hP.exists_listing (ε := ScheduleError)
  unfold groupCallers
  rw [hlist, Outcome.ok_bind]
  exact Outcome.ends_foldlM (fun state caller hmem _ =>
    groupCaller_ends hP hlist (hcallers caller hmem) state) trivial

theorem exists_groupCallers_fold (hP : P.WellFormed)
    (hlist : (P.listing : Outcome ScheduleError (List ListedNode)) = .ok listing)
    {callers : List NodeId} (hcallers : ∀ caller ∈ callers, P.ListsBinder caller ∧ P.ReachesOne caller)
    (state : List CallerGroup × List ScheduleWarning) :
    ∃ answer, callers.foldlM (P.groupCaller listing sharing body) state = .ok answer := by
  have hstep (state : List CallerGroup × List ScheduleWarning) (caller : NodeId)
      (hmem : caller ∈ callers) (_ : True) :
      ∃ answer, P.groupCaller listing sharing body state caller = .ok answer ∧ True := by
    obtain ⟨hbinder, hone⟩ := hcallers caller hmem
    obtain ⟨found, hfind⟩ := exists_destinationCall hP hlist hbinder hone
    obtain ⟨answer, hanswer⟩ := exists_groupCaller hP hlist hbinder hfind state
    exact ⟨answer, hanswer, trivial⟩
  obtain ⟨answer, hanswer, -⟩ := Outcome.exists_foldlM_eq_ok (fun _ => True) hstep trivial
  exact ⟨answer, hanswer⟩

theorem exists_groupCallers (hP : P.WellFormed) {callers : IdSet}
    (hcallers : ∀ caller ∈ callers, P.ListsBinder caller ∧ P.ReachesOne caller) :
    ∃ answer, P.groupCallers sharing body callers = .ok answer := by
  obtain ⟨listing, hlist⟩ := hP.exists_listing (ε := ScheduleError)
  obtain ⟨answer, hanswer⟩ := exists_groupCallers_fold hP hlist hcallers ([], [])
  rw [groupCallers, hlist, Outcome.ok_bind]
  exact ⟨answer, hanswer⟩

/-- The first caller that reaches several calls is the one that is refused. -/
theorem groupCallers_eq_refuse (hP : P.WellFormed) {callers : IdSet}
    (hcallers : ∀ caller ∈ callers, P.ListsBinder caller) {caller : NodeId}
    (hmem : caller ∈ callers) (hseveral : ¬ P.ReachesOne caller)
    (hfirst : ∀ other ∈ callers, other < caller → P.ReachesOne other) :
    ∃ calls : IdSet, (∀ call, call ∈ calls ↔ P.Reaches caller call) ∧ 2 ≤ calls.size
      ∧ P.groupCallers sharing body callers
        = .error (.refused (.ambiguousBinder caller calls.size)) := by
  obtain ⟨listing, hlist⟩ := hP.exists_listing (ε := ScheduleError)
  obtain ⟨calls, hreached, hsize, hrefused⟩ :=
    destinationCall_eq_refuse hP hlist (hcallers caller hmem) hseveral
  refine ⟨calls, hreached, hsize, ?_⟩
  obtain ⟨earlier, later, hsplit⟩ := List.append_of_mem (IdSet.mem_members.mpr hmem)
  have hearlier : ∀ other ∈ earlier, P.ListsBinder other ∧ P.ReachesOne other := by
    intro other hother
    have hin : other ∈ callers := by
      rw [← IdSet.mem_members, hsplit]
      exact List.mem_append_left _ hother
    have hascending := callers.ascending
    rw [hsplit] at hascending
    exact ⟨hcallers other hin, hfirst other hin
      ((List.pairwise_append.mp hascending).2.2 other hother caller List.mem_cons_self)⟩
  obtain ⟨middle, hmiddle⟩ := exists_groupCallers_fold hP hlist hearlier ([], [])
  unfold groupCallers
  rw [hlist, Outcome.ok_bind, hsplit, List.foldlM_append, hmiddle, Outcome.ok_bind,
    List.foldlM_cons, groupCaller, hrefused]
  rfl

end Program

end TailFlow
