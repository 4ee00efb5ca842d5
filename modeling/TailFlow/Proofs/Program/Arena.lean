import TailFlow.Proofs.Outcome
import TailFlow.Program.Listing

/-!
# Looking up and adding parts of a program

What a lookup answers is what stands in the arena, and what is added stands behind everything that
was there before. Fresh tensors are never constant.
-/

namespace TailFlow.Program

variable {ε : Type} {P P' : Program}

theorem tensor_eq_ok {id : TensorId} {tensor : Tensor} :
    (P.tensor id : Outcome ε Tensor) = .ok tensor ↔ P.tensors[id]? = some tensor :=
  Outcome.following_eq_ok

theorem node_eq_ok {id : NodeId} {node : Node} :
    (P.node id : Outcome ε Node) = .ok node ↔ P.nodes[id]? = some node :=
  Outcome.following_eq_ok

theorem subgraph_eq_ok {id : SubgraphId} {subgraph : Subgraph} :
    (P.subgraph id : Outcome ε Subgraph) = .ok subgraph ↔ P.subgraphs[id]? = some subgraph :=
  Outcome.following_eq_ok

theorem mem_subgraphIds {id : SubgraphId} : id ∈ P.subgraphIds ↔ id < P.subgraphs.size :=
  List.mem_range

theorem subgraph_lt {id : SubgraphId} {subgraph : Subgraph}
    (hsubgraph : P.subgraphs[id]? = some subgraph) : id < P.subgraphs.size :=
  (Array.getElem?_eq_some_iff.mp hsubgraph).1

theorem node_lt {id : NodeId} {node : Node} (hnode : P.nodes[id]? = some node) :
    id < P.nodes.size :=
  (Array.getElem?_eq_some_iff.mp hnode).1

/-- The tensors that a step adds to a program: they are counted on from those that there are, and
none of them is constant. -/
structure Fresh (P : Program) (extra : List Tensor) (ids : List TensorId) : Prop where
  ids_eq : ids = List.range' P.tensors.size extra.length
  plain : ∀ tensor ∈ extra, tensor.constant = none

theorem Fresh.length_eq {extra : List Tensor} {ids : List TensorId} (h : P.Fresh extra ids) :
    ids.length = extra.length := by
  rw [h.ids_eq, List.length_range']

theorem Fresh.nodup {extra : List Tensor} {ids : List TensorId} (h : P.Fresh extra ids) :
    ids.Nodup := by
  rw [h.ids_eq]
  exact List.nodup_range'

theorem Fresh.le_of_mem {extra : List Tensor} {ids : List TensorId} (h : P.Fresh extra ids)
    {id : TensorId} (hmem : id ∈ ids) : P.tensors.size ≤ id := by
  rw [h.ids_eq, List.mem_range'_1] at hmem
  exact hmem.1

theorem Fresh.lt_of_mem {extra : List Tensor} {ids : List TensorId} (h : P.Fresh extra ids)
    {id : TensorId} (hmem : id ∈ ids) : id < (P.tensors ++ extra.toArray).size := by
  rw [h.ids_eq, List.mem_range'_1] at hmem
  simpa using hmem.2

theorem addLike_eq_ok {template : TensorId} {name : String} {id : TensorId}
    (hadd : (P.addLike template name : Outcome ε (TensorId × Program)) = .ok (id, P')) :
    id = P.tensors.size ∧ ∃ extra : Tensor, extra.constant = none
      ∧ P' = { P with tensors := P.tensors.push extra } := by
  obtain ⟨model, -, hpure⟩ := Outcome.bind_eq_ok.mp hadd
  obtain ⟨rfl, rfl⟩ := Prod.mk.inj (Outcome.pure_eq_ok.mp hpure)
  exact ⟨rfl, _, rfl, rfl⟩

theorem addLikes_eq_ok {pairs : List (TensorId × String)} {ids : List TensorId}
    (hadd : (P.addLikes pairs : Outcome ε (List TensorId × Program)) = .ok (ids, P')) :
    ∃ extra, P.Fresh extra ids ∧ extra.length = pairs.length
      ∧ P' = { P with tensors := P.tensors ++ extra.toArray } := by
  induction pairs generalizing P ids with
  | nil =>
    obtain ⟨rfl, rfl⟩ := Prod.mk.inj (Except.ok.inj hadd)
    exact ⟨[], ⟨rfl, List.forall_mem_nil _⟩, rfl, by simp⟩
  | cons pair rest ih =>
    obtain ⟨⟨id, middle⟩, hfirst, hrest⟩ := Outcome.bind_eq_ok.mp hadd
    obtain ⟨⟨others, last⟩, hothers, hpure⟩ := Outcome.bind_eq_ok.mp hrest
    obtain ⟨rfl, rfl⟩ := Prod.mk.inj (Outcome.pure_eq_ok.mp hpure)
    obtain ⟨rfl, tensor, hplain, rfl⟩ := addLike_eq_ok hfirst
    obtain ⟨extra, hfresh, hlength, rfl⟩ := ih hothers
    refine ⟨tensor :: extra, ⟨?_, List.forall_mem_cons.mpr ⟨hplain, hfresh.plain⟩⟩, ?_, ?_⟩
    · rw [hfresh.ids_eq]
      simp [List.range'_succ]
    · simp [hlength]
    · simp

theorem exists_addLike {template : TensorId} (hlt : template < P.tensors.size) (name : String) :
    ∃ id P', (P.addLike template name : Outcome ε (TensorId × Program)) = .ok (id, P')
      ∧ P.tensors.size ≤ P'.tensors.size := by
  have htensor := tensor_eq_ok (ε := ε).mpr (Array.getElem?_eq_getElem hlt)
  rw [addLike, htensor, Outcome.ok_bind]
  exact ⟨_, _, rfl, by simp⟩

theorem exists_addLikes {pairs : List (TensorId × String)}
    (hpairs : ∀ pair ∈ pairs, pair.1 < P.tensors.size) :
    ∃ ids P', (P.addLikes pairs : Outcome ε (List TensorId × Program)) = .ok (ids, P') := by
  induction pairs generalizing P with
  | nil => exact ⟨[], P, rfl⟩
  | cons pair rest ih =>
    obtain ⟨hhead, htail⟩ := List.forall_mem_cons.mp hpairs
    obtain ⟨id, middle, hfirst, hle⟩ := exists_addLike (ε := ε) hhead pair.2
    obtain ⟨ids, P', hrest⟩ := ih fun other hmem => Nat.lt_of_lt_of_le (htail other hmem) hle
    refine ⟨id :: ids, P', ?_⟩
    rw [addLikes, hfirst, Outcome.ok_bind]
    dsimp only
    rw [hrest, Outcome.ok_bind]
    rfl

theorem exists_addNumbered (stem : String) {ids : List TensorId}
    (hids : ∀ id ∈ ids, id < P.tensors.size) : ∃ added P',
      (P.addLikes (numberedNames stem ids) : Outcome ε (List TensorId × Program))
        = .ok (added, P') := by
  refine exists_addLikes fun pair hpair => ?_
  obtain ⟨⟨id, place⟩, hid, rfl⟩ := List.mem_map.mp hpair
  exact hids id (List.fst_mem_of_mem_zipIdx hid)

@[simp] theorem length_numberedNames (stem : String) (ids : List TensorId) :
    (numberedNames stem ids).length = ids.length := by
  simp [numberedNames]

theorem insertAfter_perm (anchor id : SubgraphId) (order : List SubgraphId) :
    (insertAfter anchor id order).Perm (id :: order) := by
  induction order with
  | nil => exact .rfl
  | cons other rest ih =>
    unfold insertAfter
    split
    · exact .swap id other rest
    · exact (ih.cons other).trans (.swap id other rest)

theorem insertBefore_perm (anchor id : SubgraphId) (order : List SubgraphId) :
    (insertBefore anchor id order).Perm (id :: order) := by
  induction order with
  | nil => exact .rfl
  | cons other rest ih =>
    unfold insertBefore
    split
    · exact .rfl
    · exact (ih.cons other).trans (.swap id other rest)

/-! ### The nodes that subgraphs list -/

/-- A node stands in the list of a subgraph. -/
def Lists (P : Program) (listed : ListedNode) : Prop :=
  ∃ subgraph, P.subgraphs[listed.owner]? = some subgraph ∧ listed.id ∈ subgraph.nodes
    ∧ P.nodes[listed.id]? = some listed.node

theorem mem_listedIn {owner : SubgraphId} {answers : List ListedNode}
    (hlist : (P.listedIn owner : Outcome ε (List ListedNode)) = .ok answers)
    {listed : ListedNode} : listed ∈ answers ↔ listed.owner = owner ∧ P.Lists listed := by
  obtain ⟨subgraph, hsubgraph, hmap⟩ := Outcome.bind_eq_ok.mp hlist
  rw [subgraph_eq_ok] at hsubgraph
  constructor
  · intro hmem
    obtain ⟨id, hid, hitem⟩ := Outcome.item_of_mem_mapM hmap hmem
    obtain ⟨node, hnode, hpure⟩ := Outcome.bind_eq_ok.mp hitem
    obtain rfl := Outcome.pure_eq_ok.mp hpure
    exact ⟨rfl, subgraph, hsubgraph, hid, node_eq_ok.mp hnode⟩
  · rintro ⟨rfl, subgraph', hsubgraph', hid, hnode⟩
    obtain rfl : subgraph = subgraph' := Option.some.inj (hsubgraph.symm.trans hsubgraph')
    obtain ⟨answer, hmem, hitem⟩ := Outcome.answer_of_mem_mapM hmap hid
    rw [node_eq_ok.mpr hnode, Outcome.ok_bind, Outcome.pure_eq_ok] at hitem
    exact (show listed = answer from hitem) ▸ hmem

theorem map_id_listedIn {owner : SubgraphId} {answers : List ListedNode}
    (hlist : (P.listedIn owner : Outcome ε (List ListedNode)) = .ok answers) {subgraph : Subgraph}
    (hsubgraph : P.subgraphs[owner]? = some subgraph) :
    answers.map ListedNode.id = subgraph.nodes := by
  obtain ⟨subgraph', hsubgraph', hmap⟩ := Outcome.bind_eq_ok.mp hlist
  obtain rfl := Option.some.inj (hsubgraph.symm.trans (subgraph_eq_ok.mp hsubgraph'))
  have hpairs := Outcome.mapM_eq_ok.mp hmap
  clear hlist hmap
  generalize subgraph.nodes = nodes at hpairs
  induction hpairs with
  | nil => rfl
  | cons hitem _ ih =>
    obtain ⟨node, -, hpure⟩ := Outcome.bind_eq_ok.mp hitem
    rw [List.map_cons, ih, ← Outcome.pure_eq_ok.mp hpure]

theorem mem_listing {listing : List ListedNode}
    (hlist : (P.listing : Outcome ε (List ListedNode)) = .ok listing) {listed : ListedNode} :
    listed ∈ listing ↔ listed.owner ∈ P.order ∧ P.Lists listed := by
  obtain ⟨lists, hmap, hpure⟩ := Outcome.bind_eq_ok.mp hlist
  obtain rfl := Outcome.pure_eq_ok.mp hpure
  rw [List.mem_flatten]
  constructor
  · rintro ⟨answers, hmem, hlisted⟩
    obtain ⟨owner, howner, hitem⟩ := Outcome.item_of_mem_mapM hmap hmem
    obtain ⟨rfl, hlists⟩ := (mem_listedIn hitem).mp hlisted
    exact ⟨howner, hlists⟩
  · rintro ⟨howner, hlists⟩
    obtain ⟨answers, hmem, hitem⟩ := Outcome.answer_of_mem_mapM hmap howner
    exact ⟨answers, hmem, (mem_listedIn hitem).mpr ⟨rfl, hlists⟩⟩

/-- The numbers of the listed nodes, by the order of the subgraphs. -/
def listingIds (P : Program) : List NodeId :=
  P.order.flatMap fun owner => ((P.subgraphs[owner]?).map Subgraph.nodes).getD []

theorem map_id_listing {listing : List ListedNode}
    (hlist : (P.listing : Outcome ε (List ListedNode)) = .ok listing) :
    listing.map ListedNode.id = P.listingIds := by
  obtain ⟨lists, hmap, hpure⟩ := Outcome.bind_eq_ok.mp hlist
  obtain rfl := Outcome.pure_eq_ok.mp hpure
  have hpairs := Outcome.mapM_eq_ok.mp hmap
  unfold listingIds
  clear hlist hmap hpure
  generalize P.order = order at hpairs
  induction hpairs with
  | nil => rfl
  | cons hitem _ ih =>
    obtain ⟨subgraph, hsubgraph, -⟩ := Outcome.bind_eq_ok.mp hitem
    have hfound := subgraph_eq_ok.mp hsubgraph
    rw [List.flatten_cons, List.map_append, List.flatMap_cons, ih, map_id_listedIn hitem hfound,
      hfound]
    rfl

end TailFlow.Program
