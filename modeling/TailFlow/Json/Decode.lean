import TailFlow.Json.Reader
import TailFlow.Collection.IdMap

/-!
# Taking values out of a draft

A decoder takes a value of one type out of a draft, or gives the first fault it comes upon. An
object is decoded member by member in the order of the text: a name that stands twice is a fault
where it stands the second time, a name that is missing is a fault at the closing bracket, and the
value of a name nobody asks for is only looked over.
-/

namespace TailFlow.Json

abbrev Decoder (α : Type) := Draft → Except Fault α

namespace Decode

variable {α β : Type}

/-- The fault of one who asks for another kind of value than the one that stands there. A number or
a string is read before it is found to be of the wrong kind, an array or an object is not. -/
def unexpected : Draft → Fault
  | .number numeral => if numeral.toSingle?.isSome then .mismatched else .malformed
  | .cutWord => .truncated
  | .cutNumber => .truncated
  | .broken flaw => flaw.fault
  | .unpaired _ => .malformed
  | _ => .mismatched

/-- Looks at the place where a closing bracket is due. -/
def closing : Option Flaw → Except Fault Unit
  | none => .ok ()
  | some flaw => .error flaw.fault

mutual

/-- Looks over a value that nobody asks for. A number is only spelled there, and one that lacks a
digit is no number, also where the text ends. -/
def skip : Draft → Except Fault Unit
  | .unpaired ending => closing ending
  | .array items ending => do
    skipItems items
    closing ending
  | .object members ending => do
    skipMembers members
    closing ending
  | .cutWord => .error .truncated
  | .cutNumber => .error .malformed
  | .broken flaw => .error flaw.fault
  | _ => .ok ()

/-- Looks over the elements of an array. -/
def skipItems : List Draft → Except Fault Unit
  | [] => .ok ()
  | item :: rest => do
    skip item
    skipItems rest

def skipMembers : List (Key × Draft) → Except Fault Unit
  | [] => .ok ()
  | (key, value) :: rest => do
    match key with
    | .text _ _ => pure ()
    | .unpaired _ ending => closing ending
    | .cut _ flaw => .error flaw.fault
    | .misplaced => .error .malformed
    | .absent flaw => .error flaw.fault
    skip value
    skipMembers rest

end

/-- A natural below `2 ^ 64`. -/
def nat : Decoder Nat
  | .number numeral =>
    match numeral.toNat? with
    | some n => .ok n
    | none => .error (unexpected (.number numeral))
  | draft => .error (unexpected draft)

def single : Decoder Float32
  | .number numeral =>
    match numeral.toSingle? with
    | some x => .ok x
    | none => .error .malformed
  | draft => .error (unexpected draft)

def bool : Decoder Bool
  | .bool value => .ok value
  | draft => .error (unexpected draft)

def string : Decoder String
  | .string value => .ok value
  | draft => .error (unexpected draft)

/-- A value, or `null` for none. -/
def nullable (decode : Decoder α) : Decoder (Option α)
  | .null => .ok none
  | draft => (decode draft).map some

def list (decode : Decoder α) : Decoder (List α)
  | .array items ending => do
    let values ← items.mapM decode
    closing ending
    return values
  | draft => .error (unexpected draft)

/-- A natural written as a key: a number right after the opening quote and the closing quote right
after the number. -/
def naturalKey (text : List Char) : Except Fault Nat :=
  match text with
  | [] => .error .malformed
  | c :: _ =>
    if startsNumber c then
      match readNumeral text with
      | .error flaw => .error flaw.fault
      | .ok (numeral, rest) =>
        match numeral.toNat?, rest with
        | some n, '"' :: _ => .ok n
        | some _, _ => .error .malformed
        | none, _ => .error (unexpected (.number numeral))
    else .error .malformed

/-- The natural that a key says. -/
def keyNat : Key → Except Fault Nat
  | .text raw _ => naturalKey (raw ++ ['"'])
  | .unpaired raw _ => naturalKey (raw ++ ['"'])
  | .cut raw _ => naturalKey raw
  | .misplaced => .error .malformed
  | .absent flaw => .error flaw.fault

/-- A table keyed by naturals. Of two members with one key the later wins. -/
def table (decode : Decoder α) : Decoder (IdMap α)
  | .object members ending => do
    let filled ← members.foldlM (fun sofar member => do
      let key ← keyNat member.1
      let value ← decode member.2
      return sofar.insert key value) IdMap.empty
    closing ending
    return filled
  | draft => .error (unexpected draft)

/-- The name that a key says. -/
def keyName : Key → Except Fault String
  | .text _ value => .ok value
  | .unpaired _ _ => .error .malformed
  | .cut _ flaw => .error flaw.fault
  | .misplaced => .error .malformed
  | .absent flaw => .error flaw.fault

/-- One of several alternatives. A plain one is its name; one with contents is an object whose only
member has its name. A plain one may also be a member with `null` for its contents. -/
def alternative (plain : List (String × α)) (filled : List (String × Decoder α)) : Decoder α
  | .string name =>
    match plain.lookup name with
    | some value => .ok value
    | none => .error .mismatched
  | .object [] ending => do
    closing ending
    .error .malformed
  | .object ((key, contents) :: others) ending => do
    let name ← keyName key
    let value ←
      match plain.lookup name, filled.lookup name with
      | some value, _ =>
        match contents with
        | .null => .ok value
        | draft => .error (unexpected draft)
      | none, some decode => decode contents
      | none, none => .error .mismatched
    if others.isEmpty then
      closing ending
      return value
    else .error .malformed
  | .unpaired _ => .error .malformed
  | .broken flaw => .error flaw.fault
  | _ => .error .malformed

/-- A decoder of the members of an object, which also knows the order in which their values stand
when they are written as an array. It works through a state that fills up member by member. -/
structure Fields (α : Type) where
  names : List String
  State : Type
  start : State
  take : State → Nat → Draft → Except Fault State
  finish : State → Except Fault α

/-- A field that has a value when it is missing, if `absent` has one. -/
def field (name : String) (absent : Option α) (decode : Decoder α) : Fields α where
  names := [name]
  State := Option α
  start := none
  take held _ draft :=
    match held with
    | some _ => .error .mismatched
    | none => (decode draft).map some
  finish
    | some value => .ok value
    | none =>
      match absent with
      | some value => .ok value
      | none => .error .mismatched

def required (name : String) (decode : Decoder α) : Fields α := field name none decode

/-- A field that has a value when it is missing. -/
def optional (name : String) (absent : α) (decode : Decoder α) : Fields α :=
  field name (some absent) decode

instance : Applicative Fields where
  pure value := ⟨[], Unit, (), fun state _ _ => .ok state, fun _ => .ok value⟩
  seq functions values :=
    let functions := functions
    let values := values ()
    { names := functions.names ++ values.names
      State := functions.State × values.State
      start := (functions.start, values.start)
      take := fun (left, right) place draft =>
        if place < functions.names.length then
          (functions.take left place draft).map fun left => (left, right)
        else
          (values.take right (place - functions.names.length) draft).map fun right => (left, right)
      finish := fun (left, right) => do
        let f ← functions.finish left
        let value ← values.finish right
        return f value }

def takeMembers (fields : Fields α) : fields.State → List (Key × Draft) →
    Except Fault fields.State
  | state, [] => .ok state
  | state, (key, value) :: rest => do
    let name ← keyName key
    match fields.names.idxOf? name with
    | some place => takeMembers fields (← fields.take state place value) rest
    | none =>
      skip value
      takeMembers fields state rest

/-- Takes in the elements of an array as the values of the fields from a place on. -/
def takeItems (fields : Fields α) : fields.State → Nat → List Draft → Except Fault fields.State
  | state, _, [] => .ok state
  | state, place, item :: rest =>
    if place < fields.names.length then do
      takeItems fields (← fields.take state place item) (place + 1) rest
    else .error .malformed

/-- An object with the given fields, or an array of their values. -/
def object (fields : Fields α) : Decoder α
  | .object members ending => do
    let state ← takeMembers fields fields.start members
    closing ending
    fields.finish state
  | .array items ending => do
    let state ← takeItems fields fields.start 0 items
    closing ending
    fields.finish state
  | draft => .error (unexpected draft)

/-- One of several alternatives, told by the string under `tag` in the object that holds its other
fields, or by the first element of an array. -/
def tagged (tag : String) (alternatives : List (String × Fields α)) : Decoder α
  | .object members ending => do
    let isTag : Key × Draft → Bool
      | (.text _ name, _) => name == tag
      | _ => false
    match members.find? isTag with
    | some (_, .string name) =>
      match alternatives.lookup name with
      | some fields => object fields (.object (members.filter (!isTag ·)) ending)
      | none => .error .mismatched
    | _ => .error .mismatched
  | .array (.string name :: items) ending =>
    match alternatives.lookup name with
    | some fields => object fields (.array items ending)
    | none => .error .mismatched
  | draft => .error (unexpected draft)

/-- How the fields of an alternative may be given. -/
inductive FieldStyle where
  /-- By name, in an object. -/
  | named
  /-- By name in an object, or in their order in an array. -/
  | namedOrListed
  deriving DecidableEq, Repr

/-- The fields of an alternative. -/
def contents (style : FieldStyle) (fields : Fields α) : Decoder α
  | .array items ending =>
    match style with
    | .named => .error .mismatched
    | .namedOrListed => object fields (.array items ending)
  | draft => object fields draft

def text (decode : Decoder α) (source : String) : Except Fault α := do
  let (draft, alone) := Draft.ofText source
  let value ← decode draft
  if alone then return value else .error .malformed

end Decode

end TailFlow.Json
