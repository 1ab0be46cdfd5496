/-!
How many errors one parse may report. The budget also drops an error at the offset of the one before
it, since that is the same mistake seen again.
-/

namespace JavaSyntax

structure Budget where
  /-- Whether parsing goes on after an error. -/
  recover : Bool
  /-- The number of errors after which parsing stops. -/
  limit : Nat
  count : Nat
  halted : Bool
  last : Option Nat
deriving DecidableEq

namespace Budget

/-- A limit of zero counts as one. -/
def start (recover : Bool) (limit : Nat) : Budget :=
  ⟨recover, max limit 1, 0, false, none⟩

/-- Whether an error at this offset is to be reported. -/
def admits (b : Budget) (offset : Nat) : Bool :=
  !b.halted && b.last != some offset

/-- The budget after an error at this offset. -/
def charge (b : Budget) (offset : Nat) : Budget :=
  if b.admits offset then
    { b with
      count := b.count + 1
      halted := !b.recover || b.limit ≤ b.count + 1
      last := some offset }
  else b

/-- Whether the limit stopped the parse, rather than the first error. -/
def hitLimit (b : Budget) : Bool :=
  b.halted && b.recover

end Budget

end JavaSyntax
