import AdapterForge.Description.Basic
import AdapterForge.Document.Node

/-!
Reading a description from a document and writing it as one.
-/
namespace AdapterForge

open Document DocumentNode

variable {m : Type → Type} [Monad m] [MonadLiftT Option m] {ν : Type} [DocumentNode m ν]

def Param.read? (v : ν) : m Param := do
  let f ← record? ["name", "type"] v
  return {
    name := ← required f "name" text?
    type := ← required f "type" (choice ParamType.ofName?)
  }

def Rule.read? (v : ν) : m Rule := do
  let f ← record? ["target", "staticValue", "from"] v
  return {
    target := ← required f "target" text?
    staticValue := ← explicit f "staticValue" value?
    source := ← optional f "from" text?
  }

def Endpoint.read? (v : ν) : m Endpoint := do
  let f ← record? ["endpointUrl", "usersyncerUrl"] v
  return {
    url := ← required f "endpointUrl" text?
    usersyncUrl := ← optional f "usersyncerUrl" text?
  }

def vendorId? (v : ν) : m UInt32 := do
  let n ← count? v
  if n < 2 ^ 32 then some (UInt32.ofNat n) else none

def MetaInfo.read? (v : ν) : m MetaInfo := do
  let f ← record? ["maintainerEmail", "appMediaTypes", "siteMediaTypes", "vendorId"] v
  return {
    maintainerEmail := ← optional f "maintainerEmail" text?
    appMediaTypes := ← withDefault f "appMediaTypes" (list text?) []
    siteMediaTypes := ← withDefault f "siteMediaTypes" (list text?) []
    vendorId := ← optional f "vendorId" vendorId?
  }

def Usersync.read? (v : ν) : m Usersync := do
  let f ← record? ["cookieFamilyName", "urlParams"] v
  return {
    cookieFamilyName := ← optional f "cookieFamilyName" text?
    urlParams := ← optional f "urlParams" text?
  }

namespace Description

def memberNames : List String :=
  ["bidderName", "strategy", "properties", "metaInfo", "usersyncer", "bidderParams",
    "transformations"]

def read? (v : ν) : m Description := do
  let f ← record? memberNames v
  return {
    name := ← required f "bidderName" text?
    strategy := ← withDefault f "strategy" (choice Strategy.ofName?) .singleRequest
    endpoint := ← required f "properties" Endpoint.read?
    metaInfo := ← withDefault f "metaInfo" MetaInfo.read? .none
    usersync := ← withDefault f "usersyncer" Usersync.read? .none
    params := ← withDefault f "bidderParams" (list Param.read?) []
    rules := ← withDefault f "transformations" (list Rule.read?) []
  }

end Description

def memberOf {α : Type} (k : String) (write : α → Written) (o : Option α) :
    List (String × Written) :=
  match o with
  | some a => [(k, write a)]
  | none => []

def Param.write (p : Param) : Written :=
  .object [("name", .string p.name), ("type", .string p.type.name)]

def Rule.write (r : Rule) : Written :=
  .object (("target", .string r.target) ::
    (memberOf "staticValue" id r.staticValue ++ memberOf "from" .string r.source))

def Endpoint.write (e : Endpoint) : Written :=
  .object (("endpointUrl", .string e.url) :: memberOf "usersyncerUrl" .string e.usersyncUrl)

def writeVendorId (n : UInt32) : Written :=
  .number (.int n.toNat ⟨by omega, by have := n.toNat_lt; omega⟩)

def MetaInfo.write (m : MetaInfo) : Written :=
  .object (memberOf "maintainerEmail" .string m.maintainerEmail ++
    [("appMediaTypes", .array (m.appMediaTypes.map .string)),
      ("siteMediaTypes", .array (m.siteMediaTypes.map .string))] ++
    memberOf "vendorId" writeVendorId m.vendorId)

def Usersync.write (u : Usersync) : Written :=
  .object (memberOf "cookieFamilyName" .string u.cookieFamilyName ++
    memberOf "urlParams" .string u.urlParams)

def Description.write (d : Description) : Written :=
  .object [("bidderName", .string d.name), ("strategy", .string d.strategy.name),
    ("properties", d.endpoint.write), ("metaInfo", d.metaInfo.write),
    ("usersyncer", d.usersync.write), ("bidderParams", .array (d.params.map Param.write)),
    ("transformations", .array (d.rules.map Rule.write))]

end AdapterForge
