import TapeLang.Native.SystemCalls
import TapeLang.Proofs.Native.Fragments

/-!
# Code that runs on its own

What the hooks of the environment expand to, and how the code exits.
-/

namespace TapeLang.Native.SystemCalls

open X86 Assembly

/-! The items of the hooks. -/

/-- One round of a transfer, and the way back after an interruption. -/
def transferItems (number descriptor : UInt32) (retry : Label) : List (Item Label) :=
  [.bind retry, .plain (.movImm32 .rax number), .plain (.movImm32 .rdi descriptor),
    .plain (.mov .rsi .rsp), .plain (.movImm32 .rdx 1), .plain .syscall,
    .plain (.aluImm .cmp .rax (-4)), .branch .equal retry]

variable (capacity : Nat)

theorem expand_prologue (next : Nat) :
    Listing.expand [] next (environment capacity).prologue =
      .ok ([.plain (.aluImm .sub .rsp 16), .tapeAddress tapeReg,
        .plain (.movImm64 capacityReg (UInt64.ofNat capacity)),
        .plain (.xor32 pointerReg pointerReg)], next) := rfl

theorem expand_readByte (s : Site) (eof io next : Nat) :
    Listing.expand [("eof", eof), ("io_error", io)] next ((environment capacity).readByte s) =
      .ok (transferItems readNumber 0 next ++ [.plain (.test .rax .rax), .branch .sign io,
        .branch .equal eof, .plain (.loadByte .rax buffer)], next + 1) := rfl

theorem expand_writeByte (s : Site) (io next : Nat) :
    Listing.expand [("io_error", io)] next ((environment capacity).writeByte s) =
      .ok (.plain (.loadByte .rax cell) :: .plain (.storeByte buffer .rax) ::
        (transferItems writeNumber 1 next ++ [.plain (.test .rax .rax), .branch .lessOrEqual io]),
        next + 1) := rfl

theorem expand_recordFault (s : Site) (next : Nat) :
    Listing.expand [] next ((environment capacity).recordFault s) = .ok ([], next) := rfl

/-- The end of the code, whatever the exit. -/
def exitItems : List (Item Label) :=
  [.plain (.movImm32 .rax exitNumber), .plain .syscall]

theorem expand_epilogue (s : Site) (ok bounds io next : Nat) :
    Listing.expand [("ok", ok), ("bounds", bounds), ("io", io)] next
        ((environment capacity).epilogue s) =
      .ok (.bind ok :: .plain (.movImm32 .rdi 0) :: .jump next :: .bind bounds ::
        .plain (.movImm32 .rdi 1) :: .jump next :: .bind io :: .plain (.movImm32 .rdi 2) ::
        .bind next :: exitItems, next + 1) := rfl

theorem tidy : (environment capacity).Tidy where
  prologue next := ⟨_, _, expand_prologue capacity next, .of_unbound rfl (by simp [usedLabels]) next⟩
  readByte eof io s next := by
    refine ⟨_, _, expand_readByte capacity s eof io next, Nat.le_succ next, fun l => ?_, fun l hl => ?_⟩
    · show [next].count l + [].count l = _
      grind
    · have hused : l = next ∨ l = io ∨ l = eof := by simpa [usedLabels, transferItems] using hl
      grind
  writeByte io s next := by
    refine ⟨_, _, expand_writeByte capacity s io next, Nat.le_succ next, fun l => ?_, fun l hl => ?_⟩
    · show [next].count l + [].count l = _
      grind
    · have hused : l = next ∨ l = io := by simpa [usedLabels, transferItems] using hl
      grind
  recordFault s next :=
    ⟨_, _, expand_recordFault capacity s next, .of_unbound rfl (by decide) next⟩
  epilogue ok bounds io s next := by
    refine ⟨_, _, expand_epilogue capacity s ok bounds io next, Nat.le_succ next, fun l => ?_,
      fun l hl => ?_⟩
    · show [ok, bounds, io, next].count l + [].count l = _
      grind
    · have hused : l = next := by simpa [usedLabels, exitItems] using hl
      exact .inr (by omega)

section

variable {capacity} {f : Frame} (henvironment : f.environment = environment capacity) (s : Site)

include henvironment

theorem reading_eq : (f.reading s).1 = transferItems readNumber 0 (s.next + 3) ++
    [.plain (.test .rax .rax), .branch .sign f.io, .branch .equal s.next,
      .plain (.loadByte .rax buffer)] := by
  rw [Frame.reading, henvironment, expansion_of_expand (expand_readByte ..)]

theorem writing_eq : (f.writing s).1 = .plain (.loadByte .rax cell) ::
    .plain (.storeByte buffer .rax) :: (transferItems writeNumber 1 s.next ++
      [.plain (.test .rax .rax), .branch .lessOrEqual f.io]) := by
  rw [Frame.writing, henvironment, expansion_of_expand (expand_writeByte ..)]

theorem record_eq : (f.record s).1 = [] := by
  rw [Frame.record, henvironment, expansion_of_expand (expand_recordFault ..)]

end

/-- The exits set the status, and the end is the same. -/
theorem leavesBy_exit {f : Frame} {is : List Instruction} {L : Loaded} (C : Compiled f is L)
    (henvironment : f.environment = environment capacity) :
    Compiled.LeavesBy L f.ok (.movImm32 .rdi 0) exitItems ∧
      Compiled.LeavesBy L f.bounds (.movImm32 .rdi 1) exitItems ∧
      Compiled.LeavesBy L f.io (.movImm32 .rdi 2) exitItems := by
  obtain ⟨front, s, hitems⟩ := C.items_epilogue
  rw [Frame.leaving, henvironment, Frame.exits, expansion_of_expand (expand_epilogue ..)] at hitems
  exact C.leavesBy rfl rfl rfl hitems

/-! Results of system calls as the flags show them. -/

theorem zero_word (a b : UInt64) : (subFlags .word a b).2.zero = (a == b) := by
  have hzero : a - b = 0 ↔ a = b := by grind
  simp only [subFlags, low_word]
  apply Bool.eq_iff_iff.mpr
  rw [beq_iff_eq, beq_iff_eq, hzero]

end TapeLang.Native.SystemCalls
