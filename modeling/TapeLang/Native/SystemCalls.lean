import TapeLang.Native.Environment

/-!
# Code that runs on its own

The code is a whole Linux process. It owns a tape whose address is filled in when the process image
is laid out, reads and writes one byte at a time through system calls, and exits with the status.
-/

namespace TapeLang.Native.SystemCalls

open X86 Assembly

def readNumber : UInt32 := 0

def writeNumber : UInt32 := 1

def exitNumber : UInt32 := 60

/-- The byte being transferred lies on top of the stack. -/
def buffer : Mem := { base := .rsp }

/-- Transfers one byte between the buffer and a file descriptor, again after each interruption. -/
def transfer (number descriptor : UInt32) : List Line :=
  [.label "retry", bind "retry"] ++
    plain [.movImm32 .rax number, .movImm32 .rdi descriptor, .mov .rsi .rsp, .movImm32 .rdx 1,
      .syscall, .aluImm .cmp .rax (-4)] ++
    [branch .equal "retry"]

def environment (capacity : Nat) : Environment where
  prologue :=
    plain [.aluImm .sub .rsp 16] ++
      [.item (.tapeAddress tapeReg)] ++
      plain [.movImm64 capacityReg (UInt64.ofNat capacity), .xor32 pointerReg pointerReg]
  readByte _ :=
    transfer readNumber 0 ++
      plain [.test .rax .rax] ++
      [branch .sign "io_error", branch .equal "eof"] ++
      plain [.loadByte .rax buffer]
  writeByte _ :=
    plain [.loadByte .rax cell, .storeByte buffer .rax] ++
      transfer writeNumber 1 ++
      plain [.test .rax .rax] ++
      [branch .lessOrEqual "io_error"]
  recordFault _ := []
  epilogue _ :=
    [.label "exit", bind "ok"] ++
      plain [.movImm32 .rdi 0] ++
      [jump "exit", bind "bounds"] ++
      plain [.movImm32 .rdi 1] ++
      [jump "exit", bind "io"] ++
      plain [.movImm32 .rdi 2] ++
      [bind "exit"] ++
      plain [.movImm32 .rax exitNumber, .syscall]

end TapeLang.Native.SystemCalls
