import TailFlow.Json.Decode
import TailFlow.Proofs.Collection
import TailFlow.Proofs.Json.Reading

/-!
# What decoders take out of written documents

A decoder is right for a value if it takes the value out of the document that the value is written
as, or, where the value is of a kind that the document cannot say, finds that the document does not
have the shape that it asks for. What is put together from such decoders is right for what is put
together from such values.
-/

namespace TailFlow

def Binary32.IsFinite (x : Float32) : Prop := ∃ number, meaning x = .finite number

instance (x : Float32) : Decidable (Binary32.IsFinite x) :=
  match h : Binary32.meaning x with
  | .finite number => .isTrue ⟨number, h⟩
  | .infinite _ => .isFalse fun hfinite => by simp [Binary32.IsFinite, h] at hfinite
  | .notANumber => .isFalse fun hfinite => by simp [Binary32.IsFinite, h] at hfinite

namespace Json

/-- The key that is read where a name is written. -/
def Key.ofName (name : String) : Key := .text (rawChars name.toList) name

namespace Draft

theorem ofItems_eq_map (items : List Json) : ofItems items = items.map ofJson := by
  induction items with
  | nil => rfl
  | cons item rest ih => rw [ofItems, ih, List.map_cons]

theorem ofMembers_eq_map (members : List (String × Json)) : ofMembers members
    = members.map fun member => (.ofName member.1, ofJson member.2) := by
  induction members with
  | nil => rfl
  | cons member rest ih =>
    obtain ⟨key, value⟩ := member
    rw [ofMembers, ih, List.map_cons]
    rfl

end Draft

namespace Decode

variable {α β : Type} {decode : Decoder α} {draft : Draft} {value : α} {sound : Prop}

/-- The decoder takes the value out of the draft if the value is sound. If it is not, the draft does
not have the right shape. -/
structure Takes (decode : Decoder α) (draft : Draft) (value : α) (sound : Prop) : Prop where
  ok : sound → decode draft = .ok value
  mismatched : ¬ sound → decode draft = .error .mismatched

theorem Takes.of_eq (h : decode draft = .ok value) : Takes decode draft value True :=
  ⟨fun _ => h, fun hnot => absurd trivial hnot⟩

theorem Takes.map (f : α → β) (h : Takes decode draft value sound) :
    Takes (fun draft => f <$> decode draft) draft (f value) sound where
  ok hsound := by rw [h.ok hsound]; rfl
  mismatched hnot := by rw [h.mismatched hnot]; rfl

theorem Takes.congr {sound' : Prop} (h : Takes decode draft value sound) (hiff : sound ↔ sound') :
    Takes decode draft value sound' :=
  ⟨fun hsound => h.ok (hiff.mpr hsound),
    fun hnot => h.mismatched fun hsound => hnot (hiff.mp hsound)⟩

/-- A decoder works on the text of a document as it works on the document. -/
theorem text_text {document : Json} (hproper : Proper document) :
    text decode document.text = decode (Draft.ofJson document) := by
  rw [text, ofText_text hproper]
  dsimp only
  cases decode (Draft.ofJson document) <;> rfl

/-! ### Single values -/

theorem takes_nat {n : Nat} (hlt : n < wordCount) : Takes nat (Draft.ofJson (.ofNat n)) n True := by
  refine .of_eq ?_
  show nat (.number (.ofNat n)) = .ok n
  simp [nat, Numeral.toNat?_ofNat hlt]

theorem takes_string (value : String) : Takes string (Draft.ofJson (.string value)) value True :=
  .of_eq rfl

/-- What is written for a finite single is read as that single. -/
def ReadsBack (x : Float32) : Prop :=
  ∀ number, Binary32.meaning x = .finite number → (Numeral.ofFinite number).toSingle? = some x

instance (x : Float32) : Decidable (ReadsBack x) :=
  match h : Binary32.meaning x with
  | .finite value => decidable_of_iff ((Numeral.ofFinite value).toSingle? = some x) (by
      simp [ReadsBack, h])
  | .infinite _ => .isTrue (by simp [ReadsBack, h])
  | .notANumber => .isTrue (by simp [ReadsBack, h])

theorem takes_single {x : Float32} (hback : ReadsBack x) :
    Takes single (Draft.ofJson (.ofSingle x)) x (Binary32.IsFinite x) where
  ok := by
    rintro ⟨number, hfinite⟩
    have hsingle := hback number hfinite
    unfold Json.ofSingle
    rw [hfinite]
    show single (.number (.ofFinite number)) = .ok x
    simp [single, hsingle]
  mismatched := by
    intro hnot
    unfold Json.ofSingle
    split
    · exact absurd ⟨_, ‹_›⟩ hnot
    · rfl

/-! ### Lists and tables -/

theorem takes_mapM {values : List α} {drafts : α → Draft} {sound : α → Prop}
    (h : ∀ value ∈ values, Takes decode (drafts value) value (sound value)) :
    ((∀ value ∈ values, sound value) → (values.map drafts).mapM decode = .ok values)
      ∧ ((¬ ∀ value ∈ values, sound value) →
        (values.map drafts).mapM decode = .error .mismatched) := by
  induction values with
  | nil => exact ⟨fun _ => rfl, fun hnot => absurd (List.forall_mem_nil _) hnot⟩
  | cons value rest ih =>
    obtain ⟨hhead, htail⟩ := List.forall_mem_cons.mp h
    obtain ⟨hok, hbad⟩ := ih htail
    rw [List.map_cons, List.mapM_cons]
    constructor
    · intro hall
      obtain ⟨hsound, hrest⟩ := List.forall_mem_cons.mp hall
      rw [hhead.ok hsound, Outcome.ok_bind, hok hrest]
      rfl
    · intro hnot
      by_cases hsound : sound value
      · rw [hhead.ok hsound, Outcome.ok_bind,
          hbad fun hrest => hnot (List.forall_mem_cons.mpr ⟨hsound, hrest⟩)]
        rfl
      · rw [hhead.mismatched hsound]
        rfl

theorem takes_list {values : List α} {written : α → Json} {sound : α → Prop}
    (h : ∀ value ∈ values, Takes decode (Draft.ofJson (written value)) value (sound value)) :
    Takes (list decode) (Draft.ofJson (.array (values.map written))) values
      (∀ value ∈ values, sound value) := by
  obtain ⟨hok, hbad⟩ := takes_mapM h
  have hdraft : Draft.ofJson (.array (values.map written))
      = .array (values.map fun value => Draft.ofJson (written value)) none := by
    rw [Draft.ofJson, Draft.ofItems_eq_map, List.map_map]
    rfl
  rw [hdraft]
  refine ⟨fun hall => ?_, fun hnot => ?_⟩
  · rw [list, hok hall]
    rfl
  · rw [list, hbad hnot]
    rfl

theorem takes_nats {ns : List Nat} (hlt : ∀ n ∈ ns, n < wordCount) :
    Takes (list nat) (Draft.ofJson (.ofNats ns)) ns True := by
  have h := takes_list fun n hmem => takes_nat (hlt n hmem)
  exact .of_eq (h.ok fun _ _ => trivial)

theorem escapeChar_digit {c : Char} (hdigit : c.isDigit) : escapeChar c = [c] := by
  have hle : 48 ≤ c.toNat := (Char.isDigit_iff_toNat.mp hdigit).1
  have hne {d : Char} (hother : d.isDigit = false) : c ≠ d := by
    rintro rfl
    exact absurd (hother.symm.trans hdigit) Bool.false_ne_true
  unfold escapeChar
  rw [if_neg (hne rfl), if_neg (hne rfl), if_neg (hne rfl), if_neg (hne rfl), if_neg (hne rfl),
    if_neg (by omega), if_neg (by omega), if_neg (by omega)]

theorem rawChars_digits {digits : List Char} (hdigits : ∀ c ∈ digits, c.isDigit) :
    rawChars digits = digits := by
  induction digits with
  | nil => rfl
  | cons c rest ih =>
    obtain ⟨hdigit, hrest⟩ := List.forall_mem_cons.mp hdigits
    rw [rawChars, List.flatMap_cons, ← rawChars, ih hrest, escapeChar_digit hdigit]
    rfl

theorem keyNat_ofName {n : Nat} (hlt : n < wordCount) : keyNat (.ofName (toString n)) = .ok n := by
  have htext : (toString n).toList = (Numeral.ofNat n).text.toList := by
    simp [Numeral.text_eq, Numeral.ofNat, Numeral.fractionText, Numeral.exponentText]
  have hdigits : ∀ c ∈ (toString n).toList, c.isDigit := by
    rw [Nat.toString_eq_ofList_toDigits, String.toList_ofList]
    exact fun c hmem => Nat.isDigit_of_mem_toDigits (by decide) (by decide) hmem
  have hread := readNumeral_text (Numeral.proper_ofNat n)
    (endsNumeral_cons (c := '"') (by decide) [])
  obtain ⟨c, rest, hnumeral, hstarts⟩ := (Numeral.ofNat n).exists_text
  rw [Key.ofName, keyNat, rawChars_digits hdigits, htext]
  rw [hnumeral, List.cons_append] at hread ⊢
  simp [naturalKey, hstarts, hread, Numeral.toNat?_ofNat hlt]

theorem takes_table {written : α → Json} {table : IdMap α}
    (hkeys : ∀ entry ∈ table.entries, entry.1 < wordCount)
    (h : ∀ entry ∈ table.entries, Takes decode (Draft.ofJson (written entry.2)) entry.2 True) :
    Takes (Decode.table decode)
      (Draft.ofJson (.object (table.entries.map fun entry => (toString entry.1, written entry.2))))
      table True := by
  have hfold (entries : List (Nat × α)) (held : IdMap α)
      (hkeys : ∀ entry ∈ entries, entry.1 < wordCount)
      (h : ∀ entry ∈ entries, Takes decode (Draft.ofJson (written entry.2)) entry.2 True) :
      (entries.map fun entry =>
            (Key.ofName (toString entry.1), Draft.ofJson (written entry.2))).foldlM
          (fun sofar member => do
            let key ← keyNat member.1
            let value ← decode member.2
            return sofar.insert key value) held
        = .ok (entries.foldl (fun sofar entry => sofar.insert entry.1 entry.2) held) := by
    induction entries generalizing held with
    | nil => rfl
    | cons entry rest ih =>
      obtain ⟨hkey, hkeys⟩ := List.forall_mem_cons.mp hkeys
      obtain ⟨hvalue, h⟩ := List.forall_mem_cons.mp h
      rw [List.map_cons, List.foldlM_cons, keyNat_ofName hkey, Outcome.ok_bind, hvalue.ok trivial]
      exact ih _ hkeys h
  refine .of_eq ?_
  rw [Draft.ofJson, Draft.ofMembers_eq_map, List.map_map, Decode.table]
  refine (congrArg (· >>= _) (hfold table.entries .empty hkeys h)).trans ?_
  exact congrArg Except.ok (IdMap.empty_union table)

end Decode

end Json

end TailFlow
