import AdapterForge.Yaml.Reader
import AdapterForge.Json.Text

/-!
Tags of YAML nodes. The escapes of a tag give octets, so a tag need not be a text.
-/
namespace AdapterForge.Yaml

/-- A tag, as the octets in front of its first NUL. -/
structure Tag where
  octets : List UInt8
  deriving DecidableEq

namespace Tag

def ofOctets (l : List UInt8) : Tag := ⟨l.takeWhile (· != 0)⟩

def ofString (s : String) : Tag := ofOctets s.toUTF8.toList

instance : Append Tag := ⟨fun a b => ⟨a.octets ++ b.octets⟩⟩

def isEmpty (t : Tag) : Bool := t.octets.isEmpty

/-- The tag that says nothing about a node but that it has one. -/
def bare : Tag := ofString "!"

def standardLead : Tag := ofString "tag:yaml.org,2002:"

def standard (name : String) : Tag := standardLead ++ ofString name

def isLocal (t : Tag) : Bool := t.octets.head? == some '!'.toUInt8

def name? (t : Tag) : Option String :=
  if t.isLocal then String.fromUTF8? t.octets.tail.toByteArray else none

end Tag

/-- The characters of a tag; the last three only where `brackets` says so. -/
def isTagChar (brackets : Bool) (c : Char) : Bool :=
  isWord c || ";/?:@&=+$.!~*'()%".toList.contains c || (brackets && ",[]".toList.contains c)

def octetCount? (o : Nat) : Option Nat :=
  if o < 128 then some 1
  else if o / 32 = 6 then some 2
  else if o / 16 = 14 then some 3
  else if o / 8 = 30 then some 4
  else none

/-- The octets of a tag's characters, of which escapes stand for one each. A character of more than
one octet is escaped as a whole; `more` octets of it are still to come. -/
def tagOctets? : (more : Nat) → List Char → Option (List UInt8)
  | more, [] => if more = 0 then some [] else none
  | more, '%' :: a :: b :: r => do
    let o := (← JsonText.hexValue? a) * 16 + (← JsonText.hexValue? b)
    let more ←
      match more with
      | 0 => (octetCount? o).map (· - 1)
      | more + 1 => if o / 64 = 2 then some more else none
    return o.toUInt8 :: (← tagOctets? more r)
  | more, c :: r => if more = 0 ∧ c ≠ '%' then (tagOctets? 0 r).map (c.toUInt8 :: ·) else none

end AdapterForge.Yaml
