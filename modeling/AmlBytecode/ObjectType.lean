/-! # Object types

The types of the objects that opcodes produce when they are evaluated. -/

namespace AmlBytecode

/-- The type of object that an opcode produces. -/
inductive ObjectType
  | any | integer | string | buffer | package | device | event | method | mutex | region
  | power | processor | thermal | bufferField | localRegionField | localBankField
  | localReference | localAlias | localScope | localVariable | methodArgument
deriving DecidableEq

namespace ObjectType

def all : List ObjectType :=
  [any, integer, string, buffer, package, device, event, method, mutex, region, power, processor,
    thermal, bufferField, localRegionField, localBankField, localReference, localAlias,
    localScope, localVariable, methodArgument]

def name : ObjectType → String
  | any => "Any"
  | integer => "Integer"
  | string => "String"
  | buffer => "Buffer"
  | package => "Package"
  | device => "Device"
  | event => "Event"
  | method => "Method"
  | mutex => "Mutex"
  | region => "Region"
  | power => "Power"
  | processor => "Processor"
  | thermal => "Thermal"
  | bufferField => "BufferField"
  | localRegionField => "LocalRegionField"
  | localBankField => "LocalBankField"
  | localReference => "LocalReference"
  | localAlias => "LocalAlias"
  | localScope => "LocalScope"
  | localVariable => "LocalVariable"
  | methodArgument => "MethodArgument"

theorem mem_all (t : ObjectType) : t ∈ all := by cases t <;> decide

end ObjectType

end AmlBytecode
