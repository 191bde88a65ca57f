import CanonicalWire.Error

/-!
# Contexts

What is in force at one position of the value being written or read: the registry and the limits, which
hold throughout, and the directives, which hold for one field. A record sets the directives anew for each
of its fields; what they say reaches the parts of a field only as far as the functions below pass it on.
-/

namespace CanonicalWire

/-- Bounds for reading untrusted bytes. -/
structure Limits where
  /-- The longest byte string, text or run of bytes; also the most items that take no bytes. -/
  maxBytesLen : Nat := 100 * 1024 * 1024
  /-- How much room is reserved ahead of reading. Reserving room is left out of this development, and with it what
  happens where memory does not hold that much, so nothing reads this bound. -/
  maxPrealloc : Nat := 100
deriving DecidableEq, Repr

structure Context where
  registry : Registry
  limits : Limits := {}
  optional : Bool := false
  fixedLen : Option Nat := none
  /-- The index of the active enum group. -/
  variants : Option VariantMap := none
deriving DecidableEq

namespace Context

/-- The context of a whole value. -/
def start (registry : Registry) : Context := { registry := registry }

def withLimits (ctx : Context) (limits : Limits) : Context := { ctx with limits := limits }

/-- The context of a field without an enum group. A group that the directives name is ignored. -/
def withDirectives (ctx : Context) (d : Directives) : Context :=
  { registry := ctx.registry, limits := ctx.limits, optional := d.optional, fixedLen := d.fixedLen }

/-- The context of a field. If the record is a container, a group that the directives name is looked up. -/
def field (ctx : Context) (container : Option String) (d : Directives) : Except RegistryError Context :=
  match container, d.enumGroup with
  | some container, some group =>
      (ctx.registry.resolve container group).map fun m => { ctx.withDirectives d with variants := some m }
  | _, _ => .ok (ctx.withDirectives d)

/-- The context of the items of a sequence and of the keys and values of a map: the enum group stays. -/
def element (ctx : Context) : Context := { ctx with optional := false, fixedLen := none }

/-- The context of a union's payload and of a tuple's member: no directive stays. -/
def bare (ctx : Context) : Context := { ctx with optional := false, fixedLen := none, variants := none }

/-- The context of the value behind a presence byte: length and enum group stay. -/
def present (ctx : Context) : Context := { ctx with optional := false }

end Context
end CanonicalWire
