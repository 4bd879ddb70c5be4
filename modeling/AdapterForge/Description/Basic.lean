import AdapterForge.Json.Written

/-!
Bidder descriptions: what an adapter is generated from.
-/
namespace AdapterForge

inductive ParamType where
  | string
  | integer
  | long
  | double
  | float
  | boolean
  deriving DecidableEq

namespace ParamType

def name : ParamType → String
  | string => "String"
  | integer => "Integer"
  | long => "Long"
  | double => "Double"
  | float => "Float"
  | boolean => "Boolean"

def all : List ParamType := [string, integer, long, double, float, boolean]

def ofName? (s : String) : Option ParamType := all.find? (·.name = s)

def isNumeric : ParamType → Bool
  | string | boolean => false
  | integer | long | double | float => true

@[simp] theorem ofName?_name (t : ParamType) : ofName? t.name = some t := by
  cases t <;> decide

end ParamType

inductive Strategy where
  | singleRequest
  | requestPerImp
  deriving DecidableEq

namespace Strategy

def name : Strategy → String
  | singleRequest => "SINGLE_REQUEST"
  | requestPerImp => "REQUEST_PER_IMP"

def all : List Strategy := [singleRequest, requestPerImp]

def ofName? (s : String) : Option Strategy := all.find? (·.name = s)

@[simp] theorem ofName?_name (t : Strategy) : ofName? t.name = some t := by
  cases t <;> decide

end Strategy

structure Param where
  name : String
  type : ParamType
  deriving DecidableEq

/-- A transformation as written: a target, and a value or a path to copy from. An explicit null
is a value. -/
structure Rule where
  target : String
  staticValue : Option Written
  source : Option String
  deriving DecidableEq

structure Endpoint where
  url : String
  usersyncUrl : Option String
  deriving DecidableEq

structure MetaInfo where
  maintainerEmail : Option String
  appMediaTypes : List String
  siteMediaTypes : List String
  vendorId : Option UInt32
  deriving DecidableEq

structure Usersync where
  cookieFamilyName : Option String
  urlParams : Option String
  deriving DecidableEq

structure Description where
  name : String
  strategy : Strategy
  endpoint : Endpoint
  metaInfo : MetaInfo
  usersync : Usersync
  params : List Param
  rules : List Rule
  deriving DecidableEq

def MetaInfo.none : MetaInfo := ⟨.none, [], [], .none⟩

def Usersync.none : Usersync := ⟨.none, .none⟩

def Description.param? (d : Description) (name : String) : Option Param :=
  d.params.find? (·.name = name)

end AdapterForge
