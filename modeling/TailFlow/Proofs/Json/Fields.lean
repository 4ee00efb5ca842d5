import TailFlow.Proofs.Json.Decoding

/-!
# Taking the fields of written objects

A record is written as an object with one member for each of its fields, in their order. Its decoder
is put together from the decoders of the fields, and so is the account of what it takes out of the
object.
-/

namespace TailFlow.Json.Decode

variable {α β : Type}

@[simp] theorem names_pure (value : α) : (pure value : Fields α).names = [] := rfl

@[simp] theorem names_seq (functions : Fields (α → β)) (values : Fields α) :
    (functions <*> values).names = functions.names ++ values.names := rfl

@[simp] theorem names_required (name : String) (decode : Decoder α) :
    (required name decode).names = [name] := rfl

@[simp] theorem names_optional (name : String) (absent : α) (decode : Decoder α) :
    (optional name absent decode).names = [name] := rfl

/-! ### Members in a row -/

section Members

variable {fields : Fields α} {key : Key} {name : String} {place : Nat}

theorem takeMembers_cons (hkey : keyName key = .ok name)
    (hplace : fields.names.idxOf? name = some place) (state : fields.State) (draft : Draft)
    (rest : List (Key × Draft)) : takeMembers fields state ((key, draft) :: rest)
      = (fields.take state place draft).bind fun state => takeMembers fields state rest := by
  rw [takeMembers, hkey, Outcome.ok_bind]
  simp only [hplace]
  rfl

def Named (fields : Fields α) (members : List (Key × Draft)) : Prop :=
  ∀ member ∈ members, ∃ name ∈ fields.names, keyName member.1 = .ok name

theorem exists_idxOf? {names : List String} (hmem : name ∈ names) :
    ∃ place, names.idxOf? name = some place ∧ place < names.length := by
  obtain ⟨place, hplace⟩ := Option.isSome_iff_exists.mp (List.isSome_idxOf?.mpr hmem)
  obtain ⟨hlt, -⟩ := List.idxOf?_eq_some_iff.mp hplace
  exact ⟨place, hplace, hlt⟩

theorem takeMembers_append {left : List (Key × Draft)} (hnamed : Named fields left)
    (state : fields.State) (right : List (Key × Draft)) :
    takeMembers fields state (left ++ right)
      = (takeMembers fields state left).bind fun state => takeMembers fields state right := by
  induction left generalizing state with
  | nil => rfl
  | cons member rest ih =>
    obtain ⟨⟨name, hname, hkey⟩, hrest⟩ := List.forall_mem_cons.mp hnamed
    obtain ⟨place, hplace, -⟩ := exists_idxOf? hname
    rw [List.cons_append, takeMembers_cons hkey hplace, takeMembers_cons hkey hplace]
    cases fields.take state place member.2 with
    | error fault => rfl
    | ok state => exact ih hrest state

end Members

/-! ### Two groups of fields -/

section Sequence

variable {functions : Fields (α → β)} {values : Fields α} {members : List (Key × Draft)}

/-- The members of the first group leave the state of the second one alone. -/
theorem takeMembers_seq_left (hnamed : Named functions members) (left : functions.State)
    (right : values.State) : takeMembers (functions <*> values) (left, right) members
      = (takeMembers functions left members).map fun left => (left, right) := by
  induction members generalizing left with
  | nil => rfl
  | cons member rest ih =>
    obtain ⟨⟨name, hname, hkey⟩, hrest⟩ := List.forall_mem_cons.mp hnamed
    obtain ⟨place, hplace, hlt⟩ := exists_idxOf? hname
    have hboth : (functions <*> values).names.idxOf? name = some place := by
      show (functions.names ++ values.names).idxOf? name = some place
      rw [List.idxOf?, List.findIdx?_append, ← List.idxOf?, hplace, Option.some_or]
    have htake : (functions <*> values).take (left, right) place member.2
        = (functions.take left place member.2).map fun left => (left, right) := if_pos hlt
    rw [takeMembers_cons hkey hboth, takeMembers_cons hkey hplace, htake]
    cases functions.take left place member.2 with
    | error fault => rfl
    | ok left => exact ih hrest left

/-- The members of the second group leave the state of the first one alone. -/
theorem takeMembers_seq_right (hnamed : Named values members)
    (hnew : ∀ name ∈ values.names, name ∉ functions.names) (left : functions.State)
    (right : values.State) : takeMembers (functions <*> values) (left, right) members
      = (takeMembers values right members).map fun right => (left, right) := by
  induction members generalizing right with
  | nil => rfl
  | cons member rest ih =>
    obtain ⟨⟨name, hname, hkey⟩, hrest⟩ := List.forall_mem_cons.mp hnamed
    obtain ⟨place, hplace, -⟩ := exists_idxOf? hname
    have hboth : (functions <*> values).names.idxOf? name
        = some (place + functions.names.length) := by
      have hnone := List.idxOf?_eq_none_iff.mpr (hnew name hname)
      show (functions.names ++ values.names).idxOf? name = _
      rw [List.idxOf?] at hnone hplace ⊢
      rw [List.findIdx?_append, hnone, hplace, Option.none_or, Option.map_some]
    have htake : (functions <*> values).take (left, right) (place + functions.names.length) member.2
        = (values.take right place member.2).map fun right => (left, right) := by
      have hge : ¬ place + functions.names.length < functions.names.length := by omega
      refine (if_neg hge).trans ?_
      rw [Nat.add_sub_cancel]
    rw [takeMembers_cons hkey hboth, takeMembers_cons hkey hplace, htake]
    cases values.take right place member.2 with
    | error fault => rfl
    | ok right => exact ih hrest right

end Sequence

/-! ### What the fields make of their members -/

variable {members : List (Key × Draft)} {value : α} {sound : Prop}

/-- The fields make the value out of the members if it is sound. If it is not, one of the members
does not have the right shape. -/
structure Gives (fields : Fields α) (members : List (Key × Draft)) (value : α) (sound : Prop) :
    Prop where
  named : Named fields members
  ok : sound → ∃ state, takeMembers fields fields.start members = .ok state
    ∧ fields.finish state = .ok value
  mismatched : ¬ sound → takeMembers fields fields.start members = .error .mismatched

theorem gives_pure (value : α) : Gives (pure value) [] value True where
  named := List.forall_mem_nil _
  ok _ := ⟨(), rfl, rfl⟩
  mismatched hnot := absurd trivial hnot

theorem gives_field (name : String) {decode : Decoder α} {draft : Draft}
    (h : Takes decode draft value sound) (absent : Option α) :
    Gives (field name absent decode) [(.ofName name, draft)] value sound := by
  have htake : takeMembers (field name absent decode) (field name absent decode).start
      [(.ofName name, draft)] = (decode draft).map some := by
    have hplace : (field name absent decode).names.idxOf? name = some 0 := by
      simp [field, List.idxOf?_cons]
    rw [takeMembers_cons rfl hplace]
    show ((decode draft).map some).bind _ = _
    cases decode draft <;> rfl
  refine ⟨?_, fun hsound => ?_, fun hnot => ?_⟩
  · exact List.forall_mem_singleton.mpr ⟨name, List.mem_singleton_self name, rfl⟩
  · exact ⟨some value, by rw [htake, h.ok hsound]; rfl, rfl⟩
  · rw [htake, h.mismatched hnot]
    rfl

theorem gives_optional (name : String) {decode : Decoder α} {draft : Draft}
    (h : Takes decode draft value sound) (absent : α) :
    Gives (optional name absent decode) [(.ofName name, draft)] value sound :=
  gives_field name h (some absent)

theorem gives_absent (name : String) (absent : α) (decode : Decoder α) :
    Gives (optional name absent decode) [] absent True where
  named := List.forall_mem_nil _
  ok _ := ⟨none, rfl, rfl⟩
  mismatched hnot := absurd trivial hnot

theorem Gives.seq {functions : Fields (α → β)} {values : Fields α} {f : α → β} {sound' : Prop}
    {members' : List (Key × Draft)} (h : Gives functions members f sound)
    (h' : Gives values members' value sound')
    (hnew : ∀ name ∈ values.names, name ∉ functions.names) :
    Gives (functions <*> values) (members ++ members') (f value) (sound ∧ sound') := by
  have hnamed : Named (functions <*> values) members := fun member hmem =>
    let ⟨name, hname, hkey⟩ := h.named member hmem
    ⟨name, List.mem_append_left _ hname, hkey⟩
  have hnamed' : Named (functions <*> values) members' := fun member hmem =>
    let ⟨name, hname, hkey⟩ := h'.named member hmem
    ⟨name, List.mem_append_right _ hname, hkey⟩
  have htake : takeMembers (functions <*> values) (functions <*> values).start (members ++ members')
      = (takeMembers functions functions.start members).bind fun left =>
        (takeMembers values values.start members').map fun right => (left, right) := by
    rw [takeMembers_append hnamed]
    show (takeMembers (functions <*> values) (functions.start, values.start) members).bind _ = _
    rw [takeMembers_seq_left h.named]
    cases takeMembers functions functions.start members with
    | error fault => rfl
    | ok left => exact takeMembers_seq_right h'.named hnew left values.start
  refine ⟨?_, ?_, fun hnot => ?_⟩
  · intro member hmem
    exact (List.mem_append.mp hmem).elim (hnamed member) (hnamed' member)
  · rintro ⟨hsound, hsound'⟩
    obtain ⟨left, hleft, hf⟩ := h.ok hsound
    obtain ⟨right, hright, hvalue⟩ := h'.ok hsound'
    refine ⟨(left, right), by rw [htake, hleft, hright]; rfl, ?_⟩
    show (do let f ← functions.finish left; let value ← values.finish right; pure (f value)) = _
    rw [hf, hvalue]
    rfl
  · rw [htake]
    by_cases hsound : sound
    · obtain ⟨left, hleft, -⟩ := h.ok hsound
      rw [hleft, h'.mismatched fun hsound' => hnot ⟨hsound, hsound'⟩]
      rfl
    · rw [h.mismatched hsound]
      rfl

theorem Gives.and {fields : Fields (α → β)} {f : α → β} {decode : Decoder α} {draft : Draft}
    {sound' : Prop} (h : Gives fields members f sound) (name : String)
    (h' : Takes decode draft value sound') (hnew : name ∉ fields.names) :
    Gives (fields <*> required name decode) (members ++ [(.ofName name, draft)]) (f value)
      (sound ∧ sound') :=
  h.seq (gives_field name h' none) fun _ hname => List.mem_singleton.mp hname ▸ hnew

/-! ### Records and alternatives -/

theorem Gives.object {fields : Fields α} (h : Gives fields members value sound) :
    Takes (object fields) (.object members none) value sound where
  ok hsound := by
    obtain ⟨state, hstate, hvalue⟩ := h.ok hsound
    rw [Decode.object, hstate]
    exact hvalue
  mismatched hnot := by
    rw [Decode.object, h.mismatched hnot]
    rfl

theorem Gives.contents {fields : Fields α} (h : Gives fields members value sound)
    (style : FieldStyle) : Takes (contents style fields) (.object members none) value sound :=
  ⟨h.object.ok, h.object.mismatched⟩

theorem takes_nullable {decode : Decoder α} {draft : Draft} (h : Takes decode draft value sound)
    (hsome : draft ≠ .null) : Takes (nullable decode) draft (some value) sound := by
  have hnullable : nullable decode draft = some <$> decode draft := by
    cases draft <;> first | rfl | exact absurd rfl hsome
  exact ⟨fun hsound => hnullable ▸ (h.map some).ok hsound,
    fun hnot => hnullable ▸ (h.map some).mismatched hnot⟩

section Alternatives

variable {plain : List (String × α)} {filled : List (String × Decoder α)} {name : String}

theorem takes_plain (hname : plain.lookup name = some value) :
    Takes (alternative plain filled) (.string name) value True := by
  refine .of_eq ?_
  rw [alternative, hname]

theorem takes_filled {decode : Decoder α} {draft : Draft} (hplain : plain.lookup name = none)
    (hname : filled.lookup name = some decode) (h : Takes decode draft value sound) :
    Takes (alternative plain filled) (.object [(.ofName name, draft)] none) value sound := by
  have htaken : alternative plain filled (.object [(.ofName name, draft)] none) = decode draft := by
    simp only [alternative, Key.ofName, keyName, Outcome.ok_bind, hplain, hname]
    cases decode draft <;> rfl
  exact ⟨fun hsound => htaken ▸ h.ok hsound, fun hnot => htaken ▸ h.mismatched hnot⟩

theorem takes_numbered {style : FieldStyle} {label : String} (make : Nat → α) {n : Nat}
    (hlt : n < wordCount) (hplain : plain.lookup name = none)
    (hname : filled.lookup name = some (contents style (make <$> required label nat))) :
    Takes (alternative plain filled)
      (Draft.ofJson (.object [(name, .object [(label, .ofNat n)])])) (make n) True := by
  have h := (gives_pure make).and label (takes_nat hlt) List.not_mem_nil
  exact takes_filled hplain hname ((h.contents style).congr and_self_iff)

end Alternatives

end TailFlow.Json.Decode
