import Mathlib.Logic.Function.Basic
import Wagtail.Library.Word

/-!
# The start code of applications

`start.S` line by line, on a machine with the registers that it uses, and the
symbols that `application.ld` defines for it. The functions that the code calls
are given by what they leave behind. The program counter is the number of a line.
-/
namespace WagtailStart

open Word (wrap)

/-! ## Lines of assembly -/

inductive Reg where
  | r0
  | r1
  | r2
  deriving DecidableEq, Repr

/-- The symbols of the linker script, and `main`. -/
inductive Symbol where
  | bssStart
  | applicationEnd
  | constructorsStart
  | constructorsEnd
  | destructorsStart
  | destructorsEnd
  | main
  deriving DecidableEq, Repr

/-- A reference to a numbered label: `1b` is the last one before the line, `1f` the next one. -/
inductive Ref where
  | back (n : Nat)
  | forward (n : Nat)
  deriving DecidableEq, Repr

inductive Line where
  | label (n : Nat)
  | ldrSymbol (rt : Reg) (symbol : Symbol)
  | eors (rd rm : Reg)
  | cmp (rn rm : Reg)
  | ittNe
  | strne (rt rn : Reg) (offset : Nat)
  | bne (target : Ref)
  | beq (target : Ref)
  | b (target : Ref)
  | ldr (rt rn : Reg)
  | push (registers : List Reg)
  | pop (registers : List Reg)
  | blx (rm : Reg)
  | bl (symbol : Symbol)
  | adds (rd : Reg) (n : Nat)
  | movs (rd : Reg) (n : Nat)
  | svc (n : Nat)
  | wfi
  deriving DecidableEq, Repr

/-- `start.S`. -/
def startCode : List Line :=
  [ -- Zero the .bss section:
    .ldrSymbol .r0 .bssStart,
    .ldrSymbol .r1 .applicationEnd,
    .eors .r2 .r2,
    .label 1,
    .cmp .r0 .r1,
    .ittNe,
    .strne .r2 .r0 4,
    .bne (.back 1),
    -- Run global constructors:
    .ldrSymbol .r0 .constructorsStart,
    .ldrSymbol .r1 .constructorsEnd,
    .label 1,
    .cmp .r0 .r1,
    .beq (.forward 2),
    .ldr .r2 .r0,
    .push [.r0, .r1],
    .blx .r2,
    .pop [.r0, .r1],
    .adds .r0 4,
    .b (.back 1),
    .label 2,
    -- Start the application main program:
    .movs .r0 0,
    .movs .r1 0,
    .bl .main,
    .push [.r0],
    -- Run global destructors:
    .ldrSymbol .r0 .destructorsStart,
    .ldrSymbol .r1 .destructorsEnd,
    .label 1,
    .cmp .r0 .r1,
    .beq (.forward 2),
    .ldr .r2 .r0,
    .push [.r0, .r1],
    .blx .r2,
    .pop [.r0, .r1],
    .adds .r0 4,
    .b (.back 1),
    -- Call exit with the return code from main:
    .pop [.r0],
    .svc 1,
    .label 2,
    .wfi,
    .b (.back 2) ]

/-- The line of the label that a reference in line `i` means. -/
def resolve (code : List Line) (i : Nat) : Ref → Option Nat
  | .back n => ((code.take i).reverse.findIdx? (· == .label n)).map fun k => i - 1 - k
  | .forward n => ((code.drop (i + 1)).findIdx? (· == .label n)).map fun k => i + 1 + k

/-! ## The machine -/

/-- What can be seen of a run: bytes that are stored, functions that are called with the values
that they return, and system calls with their argument. -/
inductive Event where
  | stored (address : Nat) (byte : UInt8)
  | called (function result : Nat)
  | systemCall (n argument : Nat)
  deriving DecidableEq, Repr

/-- The stack holds the words that have been pushed, the last one first. -/
structure Machine where
  r0 : Nat
  r1 : Nat
  r2 : Nat
  zero : Bool
  stack : List Nat
  memory : Nat → UInt8
  pc : Nat
  trace : List Event

/-- What a function leaves when it returns. It keeps the stack. -/
structure Returned where
  r0 : Nat
  r1 : Nat
  r2 : Nat
  zero : Bool
  memory : Nat → UInt8

/-- The values of the symbols, and the functions in memory by address. A function that does not
return gives `none`. -/
structure Environment where
  symbol : Symbol → Nat
  function : Nat → Machine → Option Returned

def Machine.get (m : Machine) : Reg → Nat
  | .r0 => m.r0
  | .r1 => m.r1
  | .r2 => m.r2

def Machine.set (m : Machine) (r : Reg) (value : Nat) : Machine :=
  match r with
  | .r0 => { m with r0 := value }
  | .r1 => { m with r1 := value }
  | .r2 => { m with r2 := value }

def Machine.next (m : Machine) : Machine := { m with pc := m.pc + 1 }

def Machine.jump (m : Machine) (code : List Line) (target : Ref) : Option Machine :=
  (resolve code m.pc target).map fun pc => { m with pc }

/-- Byte `i` of a word. -/
def byteOf (word i : Nat) : UInt8 := UInt8.ofNat (word >>> (8 * i))

def storeWord (memory : Nat → UInt8) (a word : Nat) : Nat → UInt8 :=
  (List.range 4).foldl
    (fun memory i => Function.update memory (wrap (a + i)) (byteOf word i)) memory

def loadWord (memory : Nat → UInt8) (a : Nat) : Nat :=
  (List.range 4).foldr (fun i rest => (memory (wrap (a + i))).toNat + 256 * rest) 0

/-- A call of the function at an address. -/
def Machine.call (m : Machine) (e : Environment) (function : Nat) : Option Machine :=
  (e.function function m).map fun returned =>
    { m with
      r0 := returned.r0
      r1 := returned.r1
      r2 := returned.r2
      zero := returned.zero
      memory := returned.memory
      pc := m.pc + 1
      trace := m.trace ++ [.called function returned.r0] }

/-- The words on top of the stack, into registers. -/
def Machine.popRegisters : Machine → List Reg → Option Machine
  | m, [] => some m
  | m, r :: registers =>
    match m.stack with
    | [] => none
    | word :: stack => ({ m with stack }.set r word).popRegisters registers

/-- What a line does. -/
def execute (e : Environment) (code : List Line) (m : Machine) : Line → Option Machine
  | .label _ | .ittNe | .wfi => some m.next
  | .ldrSymbol rt symbol => some (m.set rt (e.symbol symbol)).next
  | .eors rd rm =>
    let value := m.get rd ^^^ m.get rm
    some { m.set rd value with zero := value == 0 }.next
  | .cmp rn rm => some { m with zero := m.get rn == m.get rm }.next
  | .strne rt rn offset =>
    if m.zero then some m.next
    else
      let a := m.get rn
      let bytes := (List.range 4).map fun i => Event.stored (wrap (a + i)) (byteOf (m.get rt) i)
      some ({ m with
        memory := storeWord m.memory a (m.get rt)
        trace := m.trace ++ bytes }.set rn (wrap (a + offset))).next
  | .bne target => if m.zero then some m.next else m.jump code target
  | .beq target => if m.zero then m.jump code target else some m.next
  | .b target => m.jump code target
  | .ldr rt rn => some (m.set rt (loadWord m.memory (m.get rn))).next
  | .push registers => some { m with stack := registers.map m.get ++ m.stack }.next
  | .pop registers => (m.popRegisters registers).map Machine.next
  | .blx rm => m.call e (m.get rm)
  | .bl symbol => m.call e (e.symbol symbol)
  | .adds rd n =>
    let value := wrap (m.get rd + n)
    some { m.set rd value with zero := value == 0 }.next
  | .movs rd n => some { m.set rd n with zero := n == 0 }.next
  | .svc n => some { m with trace := m.trace ++ [Event.systemCall n m.r0] }.next

/-- One line; `none` where a function does not return or the code is left. -/
def step (e : Environment) (code : List Line) (m : Machine) : Option Machine :=
  code[m.pc]?.bind (execute e code m)

def run (e : Environment) (code : List Line) : Nat → Machine → Option Machine
  | 0, m => some m
  | n + 1, m => (step e code m).bind (run e code n)

/-! ## Linked applications -/

def alignUp (n a : Nat) : Nat := (n + a - 1) / a * a

/-- What the linker puts together: the sizes of the sections, the tables of constructors and
destructors, and the address of `main`. -/
structure Application where
  textSize : Nat
  constructors : List Nat
  destructors : List Nat
  dataSize : Nat
  bssSize : Nat
  main : Nat
  deriving DecidableEq, Repr

/-- The end of a table of words that follows this address. The words are aligned, unlike the symbol
in front of them. -/
def tableEnd (start : Nat) (table : List Nat) : Nat :=
  if table = [] then start else alignUp start 4 + 4 * table.length

def Application.constructorsStart (app : Application) : Nat := 0x1000 + app.textSize

def Application.destructorsStart (app : Application) : Nat :=
  tableEnd app.constructorsStart app.constructors

def Application.destructorsEnd (app : Application) : Nat :=
  tableEnd app.destructorsStart app.destructors

def Application.dataStart (app : Application) : Nat := alignUp app.destructorsEnd 4096

def Application.bssStart (app : Application) : Nat := alignUp (app.dataStart + app.dataSize) 4

def Application.applicationEnd (app : Application) : Nat := app.bssStart + app.bssSize

/-- `application.ld`. -/
def Application.symbol (app : Application) : Symbol → Nat
  | .bssStart => app.bssStart
  | .applicationEnd => app.applicationEnd
  | .constructorsStart => app.constructorsStart
  | .constructorsEnd => app.destructorsStart
  | .destructorsStart => app.destructorsStart
  | .destructorsEnd => app.destructorsEnd
  | .main => app.main

/-- An application in memory with its functions. -/
def Application.environment (app : Application) (function : Nat → Machine → Option Returned) :
    Environment :=
  { symbol := app.symbol, function }

/-- The entry of an application, with whatever the registers and the memory hold. -/
def entry (r0 r1 r2 : Nat) (zero : Bool) (stack : List Nat) (memory : Nat → UInt8) : Machine :=
  { r0, r1, r2, zero, stack, memory, pc := 0, trace := [] }

end WagtailStart
