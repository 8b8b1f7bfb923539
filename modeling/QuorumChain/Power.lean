/-!
Powers of natural numbers. They are those of the core library, so that a power is the same term whatever
algebra is imported beside it.
-/

namespace QuorumChain

@[default_instance high + 1] instance (priority := high) powNat : Pow Nat Nat := instPowNat

end QuorumChain
