import TailFlow.Json.Basic

/-!
# Drafts

A draft is what can be made of a text that should be a document. It keeps apart the three ways in
which such a text can fail whoever reads it: the text ends early, it is not a document, or it is a
document of the wrong shape. A reader goes through a text from left to right and stops at its first
trouble, so a draft holds every flaw at the place where the text has it, and a text that is sound up
to a value of the wrong shape fails by its shape, whatever comes later.
-/

namespace TailFlow.Json

/-- How a text stops being a document. -/
inductive Flaw where
  | truncated
  | malformed
  deriving DecidableEq, Repr

/-- Why a reader refuses a text. -/
inductive Fault where
  /-- The text ends early. -/
  | truncated
  /-- The text is not a document. -/
  | malformed
  /-- The document does not have the shape that is asked for. -/
  | mismatched
  deriving DecidableEq, Repr

/-- A flaw is a fault for everyone who comes upon it. -/
def Flaw.fault : Flaw → Fault
  | .truncated => .truncated
  | .malformed => .malformed

/-- What stands where the key of a member is due. Of a string it is known what stands between its
quotes, with a lone backslash for every escape. -/
inductive Key where
  /-- A string, with what it says. -/
  | text (raw : List Char) (value : String)
  /-- A string that holds half of a surrogate pair, and so says nothing. -/
  | unpaired (raw : List Char) (ending : Option Flaw)
  /-- A string that breaks off. -/
  | cut (raw : List Char) (flaw : Flaw)
  /-- Something else than a string. -/
  | misplaced
  /-- Nothing. -/
  | absent (flaw : Flaw)
  deriving DecidableEq, Repr

/-- What can be made of a text. The ending of an array or an object is the flaw that stands in the
place of its closing bracket. -/
inductive Draft where
  | null
  | bool (value : Bool)
  | number (numeral : Numeral)
  | string (value : String)
  /-- A string that holds half of a surrogate pair, and so says nothing. -/
  | unpaired (ending : Option Flaw)
  | array (items : List Draft) (ending : Option Flaw)
  | object (members : List (Key × Draft)) (ending : Option Flaw)
  /-- A word that the text ends in. -/
  | cutWord
  /-- A number that the text ends in where a digit is due. -/
  | cutNumber
  /-- No value. -/
  | broken (flaw : Flaw)
  deriving Inhabited

namespace Draft

mutual

/-- The draft of the written form of a document. -/
def ofJson : Json → Draft
  | .null => .null
  | .bool value => .bool value
  | .number numeral => .number numeral
  | .string value => .string value
  | .array items => .array (ofItems items) none
  | .object members => .object (ofMembers members) none

def ofItems : List Json → List Draft
  | [] => []
  | item :: rest => ofJson item :: ofItems rest

def ofMembers : List (String × Json) → List (Key × Draft)
  | [] => []
  | (key, value) :: rest =>
    (.text (key.toList.flatMap fun c => (escapeChar c).take 1) key, ofJson value) :: ofMembers rest

end

end Draft

end TailFlow.Json
