import Mathlib.Data.BitVec
import Mathlib.Logic.Function.Basic
import Mathlib.Tactic.FinCases
import Wagtail.Library.Word

/-!
# An ARM processor at its exceptions

The registers with the copies that the exception modes have of some of them, the
program status registers, how an exception is taken and left, and the instructions
that exception handlers are made of. A stack holds the words that have been pushed,
the last one first; the program counter is kept by whoever runs the processor.
-/
namespace Arm

open Word (wrap)

/-! ## Program status registers -/

/-- `other` has the bits 8 to 27. -/
structure Psr where
  negative : Bool
  zero : Bool
  carry : Bool
  overflow : Bool
  other : BitVec 20
  irqDisabled : Bool
  fiqDisabled : Bool
  thumb : Bool
  mode : BitVec 5
  deriving DecidableEq, Repr

/-- The register as a word. -/
def Psr.word (p : Psr) : Nat :=
  p.mode.toNat + 2 ^ 5 * p.thumb.toNat + 2 ^ 6 * p.fiqDisabled.toNat +
    2 ^ 7 * p.irqDisabled.toNat + 2 ^ 8 * p.other.toNat + 2 ^ 28 * p.overflow.toNat +
    2 ^ 29 * p.carry.toNat + 2 ^ 30 * p.zero.toNat + 2 ^ 31 * p.negative.toNat

def bit (word i : Nat) : Bool := word / 2 ^ i % 2 == 1

def Psr.ofWord (word : Nat) : Psr where
  negative := bit word 31
  zero := bit word 30
  carry := bit word 29
  overflow := bit word 28
  other := BitVec.ofNat 20 (word / 2 ^ 8)
  irqDisabled := bit word 7
  fiqDisabled := bit word 6
  thumb := bit word 5
  mode := BitVec.ofNat 5 word

/-- Where a return to these instructions goes: they are aligned. -/
def Psr.align (p : Psr) (pc : Nat) : Nat := if p.thumb then pc / 2 * 2 else pc / 4 * 4

theorem bit_eq {word i : Nat} {b : Bool} (h : word / 2 ^ i % 2 = b.toNat) : bit word i = b := by
  rw [bit, h]
  cases b <;> rfl

@[simp] theorem Psr.ofWord_word (p : Psr) : Psr.ofWord p.word = p := by
  obtain ⟨n, z, c, v, other, i, f, t, mode⟩ := p
  have hmode := mode.isLt
  have hother := other.isLt
  have hn := n.toNat_lt
  have hz := z.toNat_lt
  have hc := c.toNat_lt
  have hv := v.toNat_lt
  have hi := i.toNat_lt
  have hf := f.toNat_lt
  have ht := t.toNat_lt
  simp only [Psr.ofWord, Psr.mk.injEq]
  refine ⟨bit_eq ?_, bit_eq ?_, bit_eq ?_, bit_eq ?_, BitVec.eq_of_toNat_eq ?_, bit_eq ?_,
    bit_eq ?_, bit_eq ?_, BitVec.eq_of_toNat_eq ?_⟩ <;>
    simp only [Psr.word, BitVec.toNat_ofNat] <;> omega

/-! ## Registers -/

/-- The modes by their numbers. User and system mode share their registers. -/
def usr : BitVec 5 := 0b10000
def fiq : BitVec 5 := 0b10001
def irq : BitVec 5 := 0b10010
def svc : BitVec 5 := 0b10011
def abt : BitVec 5 := 0b10111
def und : BitVec 5 := 0b11011
def sys : BitVec 5 := 0b11111

def bank (mode : BitVec 5) : BitVec 5 := if mode = sys then usr else mode

/-- The link registers are those of the modes. Of the stack pointers there is the one of user
mode, and the stacks that the others point to. -/
@[ext] structure Cpu where
  r : Fin 13 → Nat
  usrSp : Nat
  lr : BitVec 5 → Nat
  spsr : BitVec 5 → Psr
  stack : BitVec 5 → List Nat
  cpsr : Psr

/-- The registers that handlers name. -/
inductive Reg where
  | r (i : Fin 13)
  | lr
  deriving DecidableEq, Repr

abbrev r0 : Reg := .r 0
abbrev r1 : Reg := .r 1
abbrev r2 : Reg := .r 2
abbrev r3 : Reg := .r 3
abbrev ip : Reg := .r 12

abbrev Cpu.mode (c : Cpu) : BitVec 5 := c.cpsr.mode

def Cpu.get (c : Cpu) : Reg → Nat
  | .r i => c.r i
  | .lr => c.lr (bank c.mode)

def Cpu.set (c : Cpu) (reg : Reg) (value : Nat) : Cpu :=
  match reg with
  | .r i => { c with r := Function.update c.r i value }
  | .lr => { c with lr := Function.update c.lr (bank c.mode) value }

/-- The registers of user mode, `r0` to `r14`. -/
def Cpu.user (c : Cpu) (i : Fin 15) : Nat :=
  if h : i.val < 13 then c.r ⟨i, h⟩ else if i.val = 13 then c.usrSp else c.lr usr

def Cpu.setUser (c : Cpu) (user : Fin 15 → Nat) : Cpu :=
  { c with
    r := fun i => user (i.castLE (by decide))
    usrSp := user ⟨13, by decide⟩
    lr := Function.update c.lr usr (user ⟨14, by decide⟩) }

/-! ## Exceptions -/

/-- The bits of `other` that are not execution state: the state of an `it` block and the J bit are
in between. -/
def lasting : BitVec 20 := 0x8ff03

/-- The processor takes an exception to a mode, with a value for its link register. -/
def Cpu.take (c : Cpu) (mode : BitVec 5) (link : Nat) (thumb : Bool) : Cpu :=
  { c with
    lr := Function.update c.lr mode link
    spsr := Function.update c.spsr mode c.cpsr
    cpsr := { c.cpsr with
      other := c.cpsr.other &&& lasting ||| if mode = svc ∨ mode = und then 0 else 1
      irqDisabled := true
      fiqDisabled := c.cpsr.fiqDisabled || mode == fiq
      thumb
      mode } }

/-- The status register of the mode is the current one again. -/
def Cpu.leave (c : Cpu) : Cpu := { c with cpsr := c.spsr c.mode }

/-! ## Instructions -/

/-- The stack of a mode has these words. -/
def Cpu.setStack (c : Cpu) (mode : BitVec 5) (words : List Nat) : Cpu :=
  { c with stack := Function.update c.stack mode words }

def Cpu.push (c : Cpu) (regs : List Reg) : Cpu :=
  c.setStack c.mode (regs.map c.get ++ c.stack c.mode)

/-- The word on top of the stack. -/
def Cpu.popWord (c : Cpu) : Option (Nat × Cpu) :=
  match c.stack c.mode with
  | [] => none
  | word :: rest => some (word, c.setStack c.mode rest)

def Cpu.pop : Cpu → List Reg → Option Cpu
  | c, [] => some c
  | c, reg :: regs => do
    let (word, c) ← c.popWord
    (c.set reg word).pop regs

/-- `pop` with the program counter behind the registers. -/
def Cpu.popPc (c : Cpu) (regs : List Reg) : Option (Nat × Cpu) := do
  let c ← c.pop regs
  c.popWord

/-- `cmp` with a constant. -/
def Cpu.cmp (c : Cpu) (reg : Reg) (n : Nat) : Cpu :=
  let a := c.get reg
  let difference := Word.sub a n
  { c with cpsr := { c.cpsr with
    negative := bit difference 31
    zero := a == n
    carry := n ≤ a
    overflow := bit a 31 != bit n 31 && bit difference 31 != bit a 31 } }

/-- `tst` with a constant. -/
def Cpu.tst (c : Cpu) (reg : Reg) (n : Nat) : Cpu :=
  let value := c.get reg &&& n
  { c with cpsr := { c.cpsr with negative := bit value 31, zero := value == 0 } }

/-- What `mrs` reads from the current status register: execution state reads as zero. -/
def Cpu.mrsCpsr (c : Cpu) : Nat :=
  { c.cpsr with other := c.cpsr.other &&& lasting, thumb := false : Psr }.word

/-- `mrs` from the saved status register. -/
def Cpu.mrsSpsr (c : Cpu) : Nat := (c.spsr c.mode).word

def Cpu.msrSpsr (c : Cpu) (word : Nat) : Cpu :=
  { c with spsr := Function.update c.spsr c.mode (Psr.ofWord word) }

/-- `srsdb` with write-back, to the stack of a mode. -/
def Cpu.srsdb (c : Cpu) (mode : BitVec 5) : Cpu :=
  c.setStack mode (c.get .lr :: c.mrsSpsr :: c.stack mode)

def Cpu.cps (c : Cpu) (mode : BitVec 5) : Cpu := { c with cpsr := { c.cpsr with mode } }

/-- `rfeia` with write-back: the program counter and the status register. -/
def Cpu.rfeia (c : Cpu) : Option (Nat × Cpu) := do
  let (pc, c) ← c.popWord
  let (word, c) ← c.popWord
  some (pc, { c with cpsr := Psr.ofWord word })

/-- The stack pointer is set to the end of an unused stack. -/
def Cpu.resetStack (c : Cpu) : Cpu := c.setStack c.mode []

/-! ## Functions

A function called by the rules of the architecture's procedure call standard keeps `r4` to `r11`
and the stack.
-/

/-- What a function leaves in the other registers. -/
structure Returned where
  r0 : Nat
  r1 : Nat
  r2 : Nat
  r3 : Nat
  ip : Nat
  lr : Nat
  negative : Bool
  zero : Bool
  carry : Bool
  overflow : Bool
  deriving DecidableEq, Repr

def Cpu.returns (c : Cpu) (x : Returned) : Cpu :=
  { c with
    r := fun i => match i.val with
      | 0 => x.r0
      | 1 => x.r1
      | 2 => x.r2
      | 3 => x.r3
      | 12 => x.ip
      | _ => c.r i
    lr := Function.update c.lr (bank c.mode) x.lr
    cpsr := { c.cpsr with
      negative := x.negative
      zero := x.zero
      carry := x.carry
      overflow := x.overflow } }

/-! ## What instructions leave alone -/

variable {c c' : Cpu}

@[simp] theorem set_mode (c : Cpu) (reg : Reg) (value : Nat) : (c.set reg value).mode = c.mode := by
  cases reg <;> rfl

@[simp] theorem setStack_mode (c : Cpu) (mode : BitVec 5) (words : List Nat) :
    (c.setStack mode words).mode = c.mode := rfl

@[simp] theorem setStack_stack (c : Cpu) (mode : BitVec 5) (words : List Nat) :
    (c.setStack mode words).stack mode = words := Function.update_self ..

@[simp] theorem setStack_get (c : Cpu) (mode : BitVec 5) (words : List Nat) (reg : Reg) :
    (c.setStack mode words).get reg = c.get reg := by
  cases reg <;> rfl

@[simp] theorem setStack_setStack (c : Cpu) (mode : BitVec 5) (words words' : List Nat) :
    (c.setStack mode words).setStack mode words' = c.setStack mode words' := by
  simp [Cpu.setStack]

@[simp] theorem setStack_self (c : Cpu) (mode : BitVec 5) :
    c.setStack mode (c.stack mode) = c := by
  simp [Cpu.setStack]

@[simp] theorem set_setStack (c : Cpu) (mode : BitVec 5) (words : List Nat) (reg : Reg)
    (value : Nat) : (c.setStack mode words).set reg value = (c.set reg value).setStack mode words := by
  cases reg <;> rfl

@[simp] theorem get_set (c : Cpu) (reg : Reg) (value : Nat) : (c.set reg value).get reg = value := by
  cases reg <;> exact Function.update_self ..

@[simp] theorem cmp_get (c : Cpu) (reg reg' : Reg) (n : Nat) : (c.cmp reg n).get reg' = c.get reg' := by
  cases reg' <;> rfl

@[simp] theorem cmp_zero (c : Cpu) (reg : Reg) (n : Nat) :
    (c.cmp reg n).cpsr.zero = (c.get reg == n) := rfl

/-- The registers with the values of these words, one after the other. -/
def Cpu.load (c : Cpu) : List (Reg × Nat) → Cpu
  | [] => c
  | (reg, value) :: rest => (c.set reg value).load rest

@[simp] theorem load_setStack (c : Cpu) (mode : BitVec 5) (words : List Nat)
    (loaded : List (Reg × Nat)) :
    (c.setStack mode words).load loaded = (c.load loaded).setStack mode words := by
  induction loaded generalizing c with
  | nil => rfl
  | cons word loaded ih =>
    obtain ⟨reg, value⟩ := word
    rw [Cpu.load, Cpu.load, set_setStack, ih]

/-- Words are popped in the order of the registers. -/
theorem pop_eq {loaded : List (Reg × Nat)} {rest : List Nat}
    (h : c.stack c.mode = loaded.map Prod.snd ++ rest) :
    c.pop (loaded.map Prod.fst) = some ((c.load loaded).setStack c.mode rest) := by
  induction loaded generalizing c with
  | nil =>
    rw [List.map_nil, List.nil_append] at h
    rw [List.map_nil, Cpu.pop, ← h, Cpu.load, setStack_self]
  | cons word loaded ih =>
    obtain ⟨reg, value⟩ := word
    have hpop : c.popWord = some (value, c.setStack c.mode (loaded.map Prod.snd ++ rest)) := by
      simp only [Cpu.popWord, h, List.map_cons, List.cons_append]
    have hrest := @ih ((c.set reg value).setStack c.mode (loaded.map Prod.snd ++ rest))
      (by simp)
    simp only [load_setStack, setStack_mode, set_mode, setStack_setStack] at hrest
    simp only [List.map_cons, Cpu.pop, hpop, Option.bind_eq_bind, Option.bind_some, set_setStack,
      hrest, Cpu.load]

/-- What has been pushed is popped again, after code that keeps the mode and the stack. -/
theorem pop_push {regs : List Reg} (hmode : c'.mode = c.mode)
    (hstack : c'.stack c.mode = regs.map c.get ++ c.stack c.mode) :
    c'.pop regs = some ((c'.load (regs.map fun reg => (reg, c.get reg))).setStack c.mode
      (c.stack c.mode)) := by
  have hpop := @pop_eq c' (regs.map fun reg => (reg, c.get reg)) (c.stack c.mode) (by
    rw [hmode, hstack, List.map_map]
    rfl)
  have hregs : (regs.map fun reg => (reg, c.get reg)).map Prod.fst = regs := by
    rw [List.map_map]
    exact List.map_id _
  rwa [hregs, hmode] at hpop

@[simp] theorem load_mode (c : Cpu) (loaded : List (Reg × Nat)) : (c.load loaded).mode = c.mode := by
  induction loaded generalizing c with
  | nil => rfl
  | cons word loaded ih => rw [Cpu.load, ih, set_mode]

/-- The word behind those of the registers is popped into the program counter. -/
theorem popPc_eq {loaded : List (Reg × Nat)} {pc : Nat} {rest : List Nat}
    (h : c.stack c.mode = loaded.map Prod.snd ++ pc :: rest) :
    c.popPc (loaded.map Prod.fst) = some (pc, (c.load loaded).setStack c.mode rest) := by
  simp only [Cpu.popPc, pop_eq h, Option.bind_eq_bind, Option.bind_some, Cpu.popWord,
    setStack_mode, load_mode, setStack_stack, setStack_setStack]

/-- The registers that a function need not keep. -/
def callerSaved : List Reg := [r0, r1, r2, r3, ip, .lr]

/-- Between a push and a pop of these registers, a function can only be seen in the flags. -/
theorem pop_returns (c : Cpu) (x : Returned) :
    ((c.push callerSaved).returns x).pop callerSaved =
      some { c with cpsr := (c.returns x).cpsr } := by
  have hpop := @pop_push c ((c.push callerSaved).returns x) callerSaved rfl
    (Function.update_self ..)
  rw [hpop]
  congr 1
  ext1
  · funext i
    fin_cases i <;> rfl
  · rfl
  · simp [callerSaved, Cpu.load, Cpu.set, Cpu.get, Cpu.returns, Cpu.push, Cpu.setStack]
  · rfl
  · exact (Function.update_idem ..).trans (Function.update_eq_self ..)
  · rfl

/-- The registers behind a function, where its caller has kept `ip` and the link register. -/
def answered (r : Fin 13 → Nat) (x : Returned) (i : Fin 13) : Nat :=
  match i.val with
  | 0 => x.r0
  | 1 => x.r1
  | 2 => x.r2
  | 3 => x.r3
  | _ => r i

theorem pop_answered (c : Cpu) (x : Returned) :
    ((c.push [ip, .lr]).returns x).pop [ip, .lr] =
      some { c with r := answered c.r x, cpsr := (c.returns x).cpsr } := by
  have hpop := @pop_push c ((c.push [ip, .lr]).returns x) [ip, .lr] rfl (Function.update_self ..)
  rw [hpop]
  congr 1
  ext1
  · funext i
    fin_cases i <;> rfl
  · rfl
  · simp [Cpu.setStack, Cpu.load, Cpu.set, Cpu.get, Cpu.returns, Cpu.push]
  · rfl
  · exact (Function.update_idem ..).trans (Function.update_eq_self ..)
  · rfl

/-! ## What code in one mode leaves alone -/

/-- Code has used the link register and the flags of its mode. -/
structure Cpu.Keeps (c c' : Cpu) : Prop where
  r : c'.r = c.r
  usrSp : c'.usrSp = c.usrSp
  lr : ∀ mode ≠ bank c.mode, c'.lr mode = c.lr mode
  spsr : c'.spsr = c.spsr
  stack : c'.stack = c.stack
  mode : c'.mode = c.mode

theorem user_congr (hr : c'.r = c.r) (hsp : c'.usrSp = c.usrSp) (hlr : c'.lr usr = c.lr usr) :
    c'.user = c.user := by
  funext i
  simp only [Cpu.user, hr, hsp, hlr]

theorem set_lr_user (hbank : bank c.mode ≠ usr) (value : Nat) : (c.set .lr value).user = c.user :=
  user_congr rfl rfl (Function.update_of_ne hbank.symm ..)

@[simp] theorem setUser_user (c : Cpu) (user : Fin 15 → Nat) : (c.setUser user).user = user := by
  funext i
  by_cases h : i.val < 13
  · simp [Cpu.user, Cpu.setUser, h]
  · obtain h13 | h14 : i.val = 13 ∨ i.val = 14 := by omega
    · obtain rfl : i = ⟨13, by decide⟩ := Fin.ext h13
      simp [Cpu.user, Cpu.setUser]
    · obtain rfl : i = ⟨14, by decide⟩ := Fin.ext h14
      simp [Cpu.user, Cpu.setUser]

/-- The low six bits that `mrs` reads are the mode. -/
theorem mrsCpsr_mode (c : Cpu) : c.mrsCpsr % 2 ^ 6 = c.cpsr.mode.toNat := by
  have hmode := c.cpsr.mode.isLt
  simp only [Cpu.mrsCpsr, Psr.word, Bool.toNat_false, Nat.mul_zero, Nat.add_zero]
  omega

end Arm
