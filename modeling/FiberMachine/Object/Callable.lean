import FiberMachine.Object.Text

/-!
# Callable objects

A closure holds where its code begins, how many arguments it takes, the environment it was made in
and the instruction that made it. A bound method refers to its receiver and its name. A return
marker, on a return stack, holds the position to return to, or a word that ends the context.
-/

namespace FiberMachine

open Heap

namespace Closure

def entryField : Nat := 0
def arityField : Nat := 1
def environmentField : Nat := 2
def declarationField : Nat := 3

def create (entry arity : Nat) (env : Addr) (declaration : Nat) : HeapM Addr := do
  let addr ← withRoots [env] (allocateTagged .func 4)
  writeNat addr entryField entry
  writeNat addr arityField arity
  writeNat addr environmentField env
  writeNat addr declarationField declaration
  return addr

/-- Where the code begins. -/
def entry (addr : Addr) : HeapReader Nat := readNat addr entryField

/-- The number of arguments. -/
def arity (addr : Addr) : HeapReader Nat := readNat addr arityField

/-- The environment the closure was made in. -/
def environment (addr : Addr) : HeapReader Addr := readNat addr environmentField

/-- The instruction that made the closure, which names its parameters. -/
def declaration (addr : Addr) : HeapReader Nat := readNat addr declarationField

end Closure

namespace Method

def receiverField : Nat := 0
def nameField : Nat := 1

def create (receiver : Addr) (name : String) : HeapM Addr := do
  let name ← withRoots [receiver] (Text.ofString name)
  let addr ← withRoots [receiver, name] (allocateTagged .method 2)
  writeNat addr receiverField receiver
  writeNat addr nameField name
  return addr

def receiver (addr : Addr) : HeapReader Addr := readNat addr receiverField

/-- The string with the method's name. -/
def name (addr : Addr) : HeapReader Addr := readNat addr nameField

end Method

namespace ReturnMarker

/-- The word that ends a context instead of returning. -/
def ending : Word := ~~~0

/-- A marker that returns to `pc`, or that ends the context. -/
def create (pc : Option Nat) : HeapM Addr := do
  let addr ← allocateTagged .callRef 1
  write addr 0 (pc.elim ending UInt64.ofNat)
  return addr

/-- The position to return to, if there is one. -/
def target (addr : Addr) : HeapReader (Option Nat) := do
  let w ← read addr 0
  return if w = ending then none else some w.toNat

end ReturnMarker

end FiberMachine
