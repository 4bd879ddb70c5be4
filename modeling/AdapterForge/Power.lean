/-!
Powers of whole numbers are the built-in ones, whatever else a module knows of numbers.
-/
namespace AdapterForge

@[default_instance 20000]
instance (priority := 20000) wholePower {α : Type} [NatPow α] : Pow α Nat := instPowNat

end AdapterForge
