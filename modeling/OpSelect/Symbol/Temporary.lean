import OpSelect.Symbol.Table

/-!
Names for temporaries. A supply counts upwards and passes over the numbers whose
name is taken.
-/

namespace OpSelect

/-- The number of the last name handed out. -/
structure NameSupply where
  last : Nat := 0
deriving DecidableEq, Repr, Inhabited

namespace NameSupply

/-- The numbers to be tried. There is one more than the table has names, so one of
them is free. -/
def candidates (supply : NameSupply) (t : SymbolTable) : List Nat :=
  List.range' (supply.last + 1) (t.names.length + 1)

/-- The next number above the last one whose register name is free. -/
def nextNumber (supply : NameSupply) (cls : ValueClass) (t : SymbolTable) : Nat :=
  ((supply.candidates t).find? fun n => !t.isTaken (cls.virtualRegister n)).getD
    (supply.last + t.names.length + 2)

/-- A name that the table does not hold yet. -/
def next (supply : NameSupply) (cls : ValueClass) (t : SymbolTable) : NameSupply × String :=
  let n := supply.nextNumber cls t
  (⟨n⟩, cls.virtualRegister n)

end NameSupply

namespace SymbolTable

/-- A new variable under a name from the supply. -/
def temporary (t : SymbolTable) (supply : NameSupply) (cls : ValueClass) :
    SymbolTable × NameSupply × SymbolId :=
  let (supply, name) := supply.next cls t
  let (t, id) := t.pushNamed ⟨name, cls, .var⟩
  (t, supply, id)

/-- Several new variables, in order. -/
def temporaries (t : SymbolTable) (supply : NameSupply) (cls : ValueClass) :
    Nat → SymbolTable × NameSupply × List SymbolId
  | 0 => (t, supply, [])
  | n + 1 =>
      let (t, supply, id) := t.temporary supply cls
      let (t, supply, ids) := t.temporaries supply cls n
      (t, supply, id :: ids)

end SymbolTable
end OpSelect
