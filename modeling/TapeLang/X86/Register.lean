/-!
# General-purpose registers
-/

namespace TapeLang.X86

inductive Reg where
  | rax | rcx | rdx | rbx | rsp | rbp | rsi | rdi
  | r8 | r9 | r10 | r11 | r12 | r13 | r14 | r15
  deriving DecidableEq, Repr

namespace Reg

/-- The number that stands for a register in an encoding. -/
def code : Reg → Nat
  | rax => 0 | rcx => 1 | rdx => 2 | rbx => 3 | rsp => 4 | rbp => 5 | rsi => 6 | rdi => 7
  | r8 => 8 | r9 => 9 | r10 => 10 | r11 => 11 | r12 => 12 | r13 => 13 | r14 => 14 | r15 => 15

def all : List Reg :=
  [rax, rcx, rdx, rbx, rsp, rbp, rsi, rdi, r8, r9, r10, r11, r12, r13, r14, r15]

/-- The register of a number below sixteen. -/
def ofCode : Nat → Reg
  | 0 => rax | 1 => rcx | 2 => rdx | 3 => rbx | 4 => rsp | 5 => rbp | 6 => rsi | 7 => rdi
  | 8 => r8 | 9 => r9 | 10 => r10 | 11 => r11 | 12 => r12 | 13 => r13 | 14 => r14 | _ => r15

/-- The three bits that go into an instruction's own bytes. -/
def low (r : Reg) : Nat :=
  r.code % 8

/-- The fourth bit, which goes into the extension byte. -/
def ext (r : Reg) : Bool :=
  8 ≤ r.code

def name : Reg → String
  | rax => "rax" | rcx => "rcx" | rdx => "rdx" | rbx => "rbx"
  | rsp => "rsp" | rbp => "rbp" | rsi => "rsi" | rdi => "rdi"
  | r8 => "r8" | r9 => "r9" | r10 => "r10" | r11 => "r11"
  | r12 => "r12" | r13 => "r13" | r14 => "r14" | r15 => "r15"

def ofName? (text : String) : Option Reg :=
  all.find? (·.name == text)

@[simp] theorem ofCode_code (r : Reg) : ofCode r.code = r := by
  cases r <;> rfl

theorem low_lt (r : Reg) : r.low < 8 :=
  Nat.mod_lt _ (by decide)

theorem code_eq (r : Reg) : r.code = (if r.ext then 8 else 0) + r.low := by
  cases r <;> rfl

end Reg

end TapeLang.X86
