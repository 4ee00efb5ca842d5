import TailFlow.Proofs.CallGraph.Detection

/-!
# The calls that detection notes

For every subgraph detection notes just the calls that are not tail calls, in the order in which the
subgraph lists them, and nothing where there is none. All that is noted is told apart by the calls
themselves, because a call stands in one list at most.
-/

namespace TailFlow

open Program

namespace Program

variable {ε : Type} {P : Program}

/-- Of the whole listing, what belongs to one subgraph is what the subgraph lists. -/
theorem WellFormed.filter_listing (hP : P.WellFormed) {listing : List ListedNode}
    (hlist : (P.listing : Outcome ε (List ListedNode)) = .ok listing) {owner : SubgraphId}
    {answers : List ListedNode}
    (hanswers : (P.listedIn owner : Outcome ε (List ListedNode)) = .ok answers) :
    listing.filter (fun listed => listed.owner == owner) = answers := by
  obtain ⟨lists, hmap, hpure⟩ := Outcome.bind_eq_ok.mp hlist
  obtain rfl := Outcome.pure_eq_ok.mp hpure
  obtain ⟨subgraph, hsubgraph, -⟩ := Outcome.bind_eq_ok.mp hanswers
  have hmem := hP.mem_order.mpr (subgraph_lt (subgraph_eq_ok.mp hsubgraph))
  have hnodup := hP.order_nodup
  have hnone {others : List SubgraphId} {lists : List (List ListedNode)}
      (hpairs : List.Forall₂ (fun id list => (P.listedIn id : Outcome ε _) = .ok list) others lists)
      (habsent : owner ∉ others) :
      lists.flatten.filter (fun listed => listed.owner == owner) = [] := by
    refine List.filter_eq_nil_iff.mpr fun listed hlisted => ?_
    obtain ⟨list, hlist, hlisted⟩ := List.mem_flatten.mp hlisted
    obtain ⟨id, hid, hitem⟩ := Outcome.exists_left_of_forall₂ hpairs hlist
    rw [((mem_listedIn hitem).mp hlisted).1, beq_iff_eq]
    exact fun hsame => habsent (hsame ▸ hid)
  have hpairs := Outcome.mapM_eq_ok.mp hmap
  clear hlist hmap hpure
  generalize P.order = order at hmem hnodup hpairs
  induction hpairs with
  | nil => cases hmem
  | @cons id list others lists hitem hrest ih =>
    obtain ⟨habsent, hnodup⟩ := List.nodup_cons.mp hnodup
    rw [List.flatten_cons, List.filter_append]
    rcases List.mem_cons.mp hmem with rfl | hlater
    · obtain rfl := Except.ok.inj (hitem.symm.trans hanswers)
      rw [hnone hrest habsent, List.append_nil, List.filter_eq_self]
      exact fun listed hlisted => beq_iff_eq.mpr ((mem_listedIn hitem).mp hlisted).1
    · have hapart : list.filter (fun listed => listed.owner == owner) = [] := by
        refine List.filter_eq_nil_iff.mpr fun listed hlisted => ?_
        rw [((mem_listedIn hitem).mp hlisted).1, beq_iff_eq]
        rintro rfl
        exact habsent hlater
      rw [hapart, List.nil_append, ih hlater hnodup]

end Program

namespace Detection

variable {P : Program}

open Classical in
noncomputable def nonTailsAmong (P : Program) (nodes : List ListedNode) (owner : SubgraphId) :
    List NodeId :=
  (nodes.filter fun listed => listed.owner == owner && decide (P.NonTail owner listed.id)).map ListedNode.id

/-- What has been noted for a subgraph stays noted, and what is noted comes behind it. -/
theorem get?_noteNonTails {calls : List ListedNode}
    (hcalls : ∀ listed ∈ calls, P.Lists listed ∧ listed.node.isCall)
    {known known' : IdMap (List NodeId)} (hfold : calls.foldlM (noteNonTail P) known = .ok known')
    (owner : SubgraphId) : known'.get? owner = if nonTailsAmong P calls owner = [] then known.get? owner
      else some ((known.get? owner).getD [] ++ nonTailsAmong P calls owner) := by
  classical
  induction calls generalizing known with
  | nil =>
    obtain rfl := Outcome.foldlM_nil_eq_ok.mp hfold
    exact (if_pos rfl).symm
  | cons listed rest ih =>
    obtain ⟨⟨hlists, hcall⟩, htail⟩ := List.forall_mem_cons.mp hcalls
    obtain ⟨subgraph, hsubgraph, -, hnode⟩ := id hlists
    obtain ⟨middle, hnote, hrest⟩ := Outcome.foldlM_cons_eq_ok.mp hfold
    obtain rfl := Except.ok.inj ((noteNonTail_eq_ok hsubgraph hnode known).symm.trans hnote)
    have hnonTail := nonTail_iff hlists hcall hsubgraph
    rw [ih htail hrest]
    by_cases hhere : listed.owner = owner ∧ P.NonTail owner listed.id
    · obtain ⟨rfl, hnot⟩ := hhere
      have hamong : nonTailsAmong P (listed :: rest) listed.owner
          = listed.id :: nonTailsAmong P rest listed.owner := by
        simp [nonTailsAmong, hnot]
      rw [hamong, if_neg (hnonTail.mp hnot), IdMap.get?_alter, if_pos rfl,
        if_neg (List.cons_ne_nil _ _)]
      split
      · rename_i hnil
        rw [hnil]
      · rw [Option.getD_some, List.append_assoc, List.singleton_append]
    · have hamong : nonTailsAmong P (listed :: rest) owner = nonTailsAmong P rest owner := by
        unfold nonTailsAmong
        rw [List.filter_cons_of_neg]
        simpa using hhere
      have hsame : (if IsTail subgraph listed.id listed.node then known
          else known.alter listed.owner fun calls => calls.getD [] ++ [listed.id]).get? owner
            = known.get? owner := by
        split
        · rfl
        · rename_i hnot
          rw [IdMap.get?_alter, if_neg]
          rintro rfl
          exact hhere ⟨rfl, hnonTail.mpr hnot⟩
      rw [hamong, hsame]

/-- Among all listed calls, those of a subgraph that are not tail calls are the ones that it answers. -/
theorem nonTailsAmong_eq (hP : P.WellFormed) {listing : List ListedNode}
    (hlist : (P.listing : Outcome ScheduleError (List ListedNode)) = .ok listing)
    {owner : SubgraphId} {calls : List NodeId}
    (hcalls : (P.nonTailCalls owner : Outcome ScheduleError (List NodeId)) = .ok calls) :
    nonTailsAmong P (listing.filter fun listed => listed.node.isCall) owner = calls := by
  classical
  obtain ⟨subgraph, hsubgraph, hfilter⟩ := Outcome.bind_eq_ok.mp hcalls
  rw [subgraph_eq_ok] at hsubgraph
  obtain ⟨answers, hanswers⟩ := hP.exists_listedIn (ε := ScheduleError) (subgraph_lt hsubgraph)
  rw [(Outcome.filterM_eq_ok.mp hfilter).2, ← map_id_listedIn hanswers hsubgraph, List.filter_map,
    ← hP.filter_listing hlist hanswers, List.filter_filter, nonTailsAmong, List.filter_filter]
  refine congrArg _ (List.filter_congr fun listed hmem => ?_)
  have hlists := (hP.mem_listing hlist).mp hmem
  obtain ⟨subgraph', hsubgraph', hnode, hread⟩ := id hlists
  by_cases hhere : listed.owner = owner
  · subst hhere
    obtain rfl := Option.some.inj (hsubgraph.symm.trans hsubgraph')
    obtain ⟨answer, hanswer, hiff⟩ := isNonTailCall_of_mem (ε := ScheduleError) hP hsubgraph hnode
    have hcall : P.NonTail listed.owner listed.id → listed.node.isCall = true := by
      rintro ⟨-, node, -, -, hnode', hcall, -⟩
      obtain rfl := Option.some.inj (hread.symm.trans hnode')
      exact hcall
    rw [Bool.eq_iff_iff]
    simp only [Function.comp_apply, hanswer, Outcome.holds, hiff, beq_self_eq_true, Bool.true_and,
      Bool.and_true, Bool.and_eq_true, decide_eq_true_eq]
    exact and_iff_left_of_imp hcall
  · have hnot : (listed.owner == owner) = false := beq_eq_false_iff_ne.mpr hhere
    simp [hnot]

/-- What is noted for a subgraph are its calls that are not tail calls, provided there are any. -/
theorem get?_nonTailCalls_eq_some (hP : P.WellFormed) {catalog : Catalog} {detection : Detection}
    (hdetect : detect P catalog = .ok detection) {id : SubgraphId} {calls : List NodeId} :
    detection.nonTailCalls.get? id = some calls
      ↔ calls ≠ [] ∧ (P.nonTailCalls id : Outcome ScheduleError (List NodeId)) = .ok calls := by
  obtain ⟨listing, -, hlist, -, hfold, -⟩ := detect_eq_ok hdetect
  have hget := get?_noteNonTails (fun listed hmem => (mem_calls_iff hP hlist).mp hmem) hfold id
  rw [IdMap.get?_empty, Option.getD_none, List.nil_append] at hget
  constructor
  · intro hsome
    rw [hsome] at hget
    split at hget
    · exact nomatch hget
    · rename_i hne
      obtain rfl := Option.some.inj hget
      -- Something is noted, so the subgraph is there and answers.
      obtain ⟨call, hcall⟩ := List.exists_mem_of_ne_nil _ hne
      obtain ⟨listed, hmem, rfl⟩ := List.mem_map.mp hcall
      obtain ⟨hlisted, hhere⟩ := List.mem_filter.mp hmem
      obtain ⟨⟨subgraph, hsubgraph, -⟩, -⟩ := (mem_calls_iff hP hlist).mp hlisted
      rw [Bool.and_eq_true, beq_iff_eq] at hhere
      rw [hhere.1] at hsubgraph
      obtain ⟨answers, hanswers, -⟩ := exists_nonTailCalls (ε := ScheduleError) hP hsubgraph
      rw [nonTailsAmong_eq hP hlist hanswers] at hne ⊢
      exact ⟨hne, hanswers⟩
  · intro ⟨hne, hanswers⟩
    rw [hget, nonTailsAmong_eq hP hlist hanswers, if_neg hne]

end Detection

end TailFlow
