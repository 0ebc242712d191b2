import TapeLang.Native.Environment

/-!
# Code called by a host

The code is a function of the tape's address, its capacity and the address of a context. It reads and
writes by calling back through the context and returns a status: zero at the end of the program, one
for a refused move, two for a failed channel.
-/

namespace TapeLang.Native.HostCalls

open X86 Assembly

/-- The address of the context. -/
def contextReg : Reg := .r14

/-! Offsets in the context. -/

def hostField : Int32 := 0

def readField : Int32 := 8

def writeField : Int32 := 16

def pointerField : Int32 := 24

def faultField : Int32 := 32

def contextSize : Nat := 40

/-- What the read callback returns at the end of the input. -/
def endOfInput : Int32 := 0x100

/-- Registers a callee hands back unchanged, in the order they are saved. -/
def saved : List Reg := [.rbx, .r12, .r13, .r14, .r15]

def field (offset : Int32) : Mem := { base := contextReg, disp := offset }

def environment : Environment where
  prologue :=
    plain (saved.map .push ++
      [.mov tapeReg .rdi, .mov capacityReg .rsi, .mov contextReg .rdx,
        .load pointerReg (field pointerField)])
  readByte _ :=
    plain [.load .rdi (field hostField), .callMem (field readField), .test32 .rax .rax] ++
      [branch .sign "io_error"] ++
      plain [.aluImm32 .cmp .rax endOfInput] ++
      [branch .equal "eof"]
  writeByte _ :=
    plain [.load .rdi (field hostField), .loadByte .rsi cell, .callMem (field writeField),
        .test32 .rax .rax] ++
      [branch .notEqual "io_error"]
  recordFault site :=
    plain [.movImm64 .rax (UInt64.ofNat site.index), .store (field faultField) .rax]
  epilogue _ :=
    [.label "done", bind "ok"] ++
      plain [.xor32 .rax .rax] ++
      [jump "done", bind "bounds"] ++
      plain [.movImm32 .rax 1] ++
      [jump "done", bind "io"] ++
      plain [.movImm32 .rax 2] ++
      [bind "done"] ++
      plain ([.store (field pointerField) pointerReg] ++ saved.reverse.map .pop ++ [.ret])

end TapeLang.Native.HostCalls
