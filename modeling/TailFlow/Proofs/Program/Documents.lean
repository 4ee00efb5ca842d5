import TailFlow.Program.Codec
import TailFlow.Proofs.Json.Fields

/-!
# Programs are read back

The text of a program is read as a document that has the right shape just if all elements of
constants are finite, since what is written for another single is no number. What is taken out of a
document of the right shape is the program that was written, whatever it is, and only then is it
checked.
-/

namespace TailFlow

open Json (Draft Proper ProperMembers)
open Json.Decode

variable (style : FieldStyle)

/-! ### The parts of a program -/

theorem ElementType.takes (elementType : ElementType) :
    Takes decode (Draft.ofJson elementType.toJson) elementType True := by
  cases elementType <;> exact takes_plain rfl

def Tensor.elements (tensor : Tensor) : List Float32 := tensor.constant.getD []

theorem Tensor.takes {tensor : Tensor} (hnumbers : ∀ length ∈ tensor.shape, length < wordCount)
    (hback : ∀ x ∈ tensor.elements, ReadsBack x) :
    Takes decode (Draft.ofJson tensor.toJson) tensor
      (∀ x ∈ tensor.elements, Binary32.IsFinite x) := by
  obtain ⟨name, shape, elementType, constant⟩ := tensor
  have hshape := (gives_pure Tensor.mk).and "name" (takes_string name) (by simp)
    |>.and "shape" (takes_nats hnumbers) (by simp)
    |>.and "dtype" elementType.takes (by simp)
  cases constant with
  | none =>
    have h := hshape.seq (gives_absent "constant" none (nullable (list single))) (by simp)
    exact h.object.congr (by simp [elements])
  | some values =>
    have hvalues := takes_nullable (takes_list fun x hmem => takes_single (hback x hmem)) nofun
    have h := hshape.seq (gives_optional "constant" hvalues none) (by simp)
    exact h.object.congr (by simp [elements])

theorem Tensor.proper_toJson (tensor : Tensor) : Proper tensor.toJson := by
  have htype : Proper tensor.elementType.toJson := by
    cases tensor.elementType <;> trivial
  unfold toJson
  cases tensor.constant with
  | none => exact ⟨trivial, Json.proper_ofNats _, htype, trivial⟩
  | some values =>
    exact ⟨trivial, Json.proper_ofNats _, htype,
      Json.proper_array fun x _ => Json.proper_ofSingle x, trivial⟩

theorem KernelOp.takes (op : KernelOp) : Takes decode (Draft.ofJson op.toJson) op True := by
  cases op <;> exact takes_plain rfl

def NodeKind.numbers (kind : NodeKind) : List Nat := kind.callee?.toList

theorem NodeKind.takes {kind : NodeKind} (hnumbers : ∀ n ∈ kind.numbers, n < wordCount) :
    Takes (decode style) (Draft.ofJson kind.toJson) kind True := by
  cases kind with
  | kernel op => exact takes_filled rfl rfl ((KernelOp.takes op).map NodeKind.kernel)
  | bind callee =>
    have hlt := hnumbers callee (List.mem_singleton_self callee)
    exact takes_numbered NodeKind.bind hlt rfl rfl
  | call => exact takes_plain rfl
  | switch => exact takes_plain rfl
  | switchLayer => exact takes_plain rfl

def Node.numbers (node : Node) : List Nat := node.kind.numbers ++ node.inputs ++ node.outputs

theorem Node.takes {node : Node} (hnumbers : ∀ n ∈ node.numbers, n < wordCount) :
    Takes (decode style) (Draft.ofJson node.toJson) node True := by
  simp only [numbers, List.forall_mem_append] at hnumbers
  obtain ⟨⟨hkind, hinputs⟩, houtputs⟩ := hnumbers
  have h := (gives_pure Node.mk).and "name" (takes_string node.name) (by simp)
    |>.and "kind" (NodeKind.takes style hkind) (by simp)
    |>.and "inputs" (takes_nats hinputs) (by simp)
    |>.and "outputs" (takes_nats houtputs) (by simp)
  exact h.object.congr (by simp)

theorem Node.proper_toJson (node : Node) : Proper node.toJson := by
  have hkind : Proper node.kind.toJson := by
    cases node.kind with
    | kernel op => cases op <;> exact ⟨trivial, trivial⟩
    | bind callee => exact ⟨⟨Json.proper_ofNat callee, trivial⟩, trivial⟩
    | call => trivial
    | switch => trivial
    | switchLayer => trivial
  exact ⟨trivial, hkind, Json.proper_ofNats _, Json.proper_ofNats _, trivial⟩

def SubgraphKind.numbers : SubgraphKind → List Nat
  | .body => []
  | .segment target | .entrance target | .exit target => [target]

theorem SubgraphKind.takes {kind : SubgraphKind} (hnumbers : ∀ n ∈ kind.numbers, n < wordCount) :
    Takes (decode style) (Draft.ofJson kind.toJson) kind True := by
  cases kind with
  | body => exact takes_plain rfl
  | segment origin =>
    have hlt := hnumbers origin (List.mem_singleton_self origin)
    exact takes_numbered SubgraphKind.segment hlt rfl rfl
  | entrance wrapped =>
    have hlt := hnumbers wrapped (List.mem_singleton_self wrapped)
    exact takes_numbered SubgraphKind.entrance hlt rfl rfl
  | exit wrapped =>
    have hlt := hnumbers wrapped (List.mem_singleton_self wrapped)
    exact takes_numbered SubgraphKind.exit hlt rfl rfl

def Subgraph.numbers (subgraph : Subgraph) : List Nat :=
  subgraph.kind.numbers ++ subgraph.inputs ++ subgraph.outputs ++ subgraph.nodes

theorem Subgraph.takes {subgraph : Subgraph} (hnumbers : ∀ n ∈ subgraph.numbers, n < wordCount) :
    Takes (decode style) (Draft.ofJson subgraph.toJson) subgraph True := by
  simp only [numbers, List.forall_mem_append] at hnumbers
  obtain ⟨⟨⟨hkind, hinputs⟩, houtputs⟩, hnodes⟩ := hnumbers
  have h := (gives_pure Subgraph.mk).and "name" (takes_string subgraph.name) (by simp)
    |>.and "kind" (SubgraphKind.takes style hkind) (by simp)
    |>.and "inputs" (takes_nats hinputs) (by simp)
    |>.and "outputs" (takes_nats houtputs) (by simp)
    |>.and "nodes" (takes_nats hnodes) (by simp)
  exact h.object.congr (by simp)

theorem Subgraph.proper_toJson (subgraph : Subgraph) : Proper subgraph.toJson := by
  have hkind : Proper subgraph.kind.toJson := by
    cases subgraph.kind with
    | body => trivial
    | segment target | entrance target | exit target =>
      exact ⟨⟨Json.proper_ofNat target, trivial⟩, trivial⟩
  exact ⟨trivial, hkind, Json.proper_ofNats _, Json.proper_ofNats _, Json.proper_ofNats _, trivial⟩

def Link.numbers (link : Link) : List Nat :=
  link.call :: link.continuation :: link.consumer :: link.tensors

theorem Link.takes {link : Link} (hnumbers : ∀ n ∈ link.numbers, n < wordCount) :
    Takes decode (Draft.ofJson link.toJson) link True := by
  simp only [numbers, List.forall_mem_cons] at hnumbers
  obtain ⟨hcall, hcontinuation, hconsumer, htensors⟩ := hnumbers
  have h := (gives_pure Link.mk).and "call" (takes_nat hcall) (by simp)
    |>.and "continuation" (takes_nat hcontinuation) (by simp)
    |>.and "consumer" (takes_nat hconsumer) (by simp)
    |>.and "tensors" (takes_nats htensors) (by simp)
  exact h.object.congr (by simp)

theorem Link.proper_toJson (link : Link) : Proper link.toJson :=
  ⟨Json.proper_ofNat _, Json.proper_ofNat _, Json.proper_ofNat _, Json.proper_ofNats _, trivial⟩

namespace Program

/-! ### Whole programs -/

def numbers (program : Program) : List Nat :=
  program.tensors.toList.flatMap Tensor.shape ++ program.nodes.toList.flatMap Node.numbers
    ++ program.subgraphs.toList.flatMap Subgraph.numbers ++ program.order
    ++ program.entry :: program.outputs
    ++ program.links.entries.flatMap fun entry => entry.1 :: entry.2.numbers

/-- The elements of all constant tensors of a program. -/
def elements (program : Program) : List Float32 :=
  program.tensors.toList.flatMap Tensor.elements

variable {program : Program}

theorem takes (hnumbers : ∀ n ∈ program.numbers, n < wordCount)
    (hback : ∀ x ∈ program.elements, ReadsBack x) :
    Takes (decode style) (Draft.ofJson program.toJson) program
      (∀ x ∈ program.elements, Binary32.IsFinite x) := by
  simp only [numbers, List.forall_mem_append, List.forall_mem_cons, List.forall_mem_flatMap]
    at hnumbers
  obtain ⟨⟨⟨⟨⟨htensors, hnodes⟩, hsubgraphs⟩, horder⟩, hentry, houtputs⟩, hlinks⟩ := hnumbers
  have hconstants := List.forall_mem_flatMap.mp hback
  have htensors := takes_list fun tensor hmem => Tensor.takes (htensors tensor hmem)
    (hconstants tensor hmem)
  have hnodes := takes_list fun node hmem => Node.takes style (hnodes node hmem)
  have hsubgraphs := takes_list fun subgraph hmem => Subgraph.takes style (hsubgraphs subgraph hmem)
  have hlinks := takes_table (fun entry hmem => (hlinks entry hmem).1)
    fun entry hmem => Link.takes (hlinks entry hmem).2
  have h := (gives_pure fun tensors nodes subgraphs order entry outputs links =>
      (⟨tensors.toArray, nodes.toArray, subgraphs.toArray, order, entry, outputs, links⟩ : Program))
    |>.and "tensors" htensors (by simp)
    |>.and "nodes" hnodes (by simp)
    |>.and "subgraphs" hsubgraphs (by simp)
    |>.and "order" (takes_nats horder) (by simp)
    |>.and "entry" (takes_nat hentry) (by simp)
    |>.and "outputs" (takes_nats houtputs) (by simp)
    |>.seq (gives_optional "links" hlinks .empty) (by simp)
  refine h.object.congr ?_
  simp only [elements, List.forall_mem_flatMap, implies_true, true_and, and_true]

theorem proper_toJson (program : Program) : Proper program.toJson :=
  ⟨Json.proper_array fun tensor _ => tensor.proper_toJson,
    Json.proper_array fun node _ => node.proper_toJson,
    Json.proper_array fun subgraph _ => subgraph.proper_toJson,
    Json.proper_ofNats _, Json.proper_ofNat _, Json.proper_ofNats _,
    Json.proper_object fun entry _ => entry.2.proper_toJson, trivial⟩

/-- A program is read back from its text as it was if and only if it is valid and all elements of
its constants are finite. If they are finite, reading says what is wrong with it, and if they are
not, that the text has not the right shape. -/
theorem read_write (program : Program) (hnumbers : ∀ n ∈ program.numbers, n < wordCount)
    (hback : ∀ x ∈ program.elements, ReadsBack x) :
    (read program.write = .ok program
        ↔ program.validate = .ok () ∧ ∀ x ∈ program.elements, Binary32.IsFinite x)
      ∧ ((∀ x ∈ program.elements, Binary32.IsFinite x) →
        ∀ defect, program.validate = .error defect → read program.write = .error (.invalid defect))
      ∧ ((¬ ∀ x ∈ program.elements, Binary32.IsFinite x) →
        read program.write = .error (.document .mismatched)) := by
  have htext : Json.Decode.text (decode .namedOrListed) program.write
      = decode .namedOrListed (Draft.ofJson program.toJson) := text_text program.proper_toJson
  have htakes := takes .namedOrListed hnumbers hback
  have hbad (hnot : ¬ ∀ x ∈ program.elements, Binary32.IsFinite x) :
      read program.write = .error (.document .mismatched) := by
    rw [read, htext, htakes.mismatched hnot]
  have hinvalid (hfinite : ∀ x ∈ program.elements, Binary32.IsFinite x) {defect : Defect}
      (hdefect : program.validate = .error defect) :
      read program.write = .error (.invalid defect) := by
    simp only [read, htext, htakes.ok hfinite, hdefect]
  refine ⟨⟨fun hread => ?_, ?_⟩, fun hfinite defect => hinvalid hfinite, hbad⟩
  · by_cases hfinite : ∀ x ∈ program.elements, Binary32.IsFinite x
    · refine ⟨?_, hfinite⟩
      cases hvalidate : program.validate with
      | ok => rfl
      | error defect =>
        rw [hinvalid hfinite hvalidate] at hread
        cases hread
    · rw [hbad hfinite] at hread
      cases hread
  · rintro ⟨hvalid, hfinite⟩
    simp only [read, htext, htakes.ok hfinite, hvalid]

/-- A call of a subgraph that scales by a constant, with what comes after the call cut off. -/
def scaledCall : Program where
  tensors := #[⟨"x", [2], .f32, none⟩,
    ⟨"\"scale\"", [2], .f16, some [.ofBits 0x3fc00000, .ofBits 0xbdcccccd]⟩,
    ⟨"handle", [], .f32, none⟩, ⟨"scaled", [2], .f32, none⟩, ⟨"a", [2], .f32, none⟩,
    ⟨"b", [2], .f32, none⟩, ⟨"y", [2], .f32, none⟩]
  nodes := #[⟨"bind", .bind 1, [0], [2]⟩, ⟨"call", .call, [2], [3]⟩,
    ⟨"mul", .kernel .mul, [4, 1], [5]⟩, ⟨"neg", .kernel .neg, [3], [6]⟩]
  subgraphs := #[⟨"main", .body, [0], [3], [0, 1]⟩, ⟨"scale", .body, [4], [5], [2]⟩,
    ⟨"main_rest", .segment 0, [3], [6], [3]⟩]
  order := [0, 2, 1]
  entry := 0
  outputs := [6]
  links := IdMap.empty.insert 1 ⟨1, 2, 3, [3]⟩

theorem scaledCall_read_write : (∀ n ∈ scaledCall.numbers, n < wordCount)
    ∧ (∀ x ∈ scaledCall.elements, ReadsBack x) ∧ read scaledCall.write = .ok scaledCall := by
  have hnumbers : ∀ n ∈ scaledCall.numbers, n < wordCount := by decide
  have hback : ∀ x ∈ scaledCall.elements, ReadsBack x := by decide +kernel
  have hfinite : ∀ x ∈ scaledCall.elements, Binary32.IsFinite x := by decide +kernel
  have hvalid : scaledCall.validate = .ok () := by decide +kernel
  exact ⟨hnumbers, hback, (read_write scaledCall hnumbers hback).1.mpr ⟨hvalid, hfinite⟩⟩

end Program

end TailFlow
