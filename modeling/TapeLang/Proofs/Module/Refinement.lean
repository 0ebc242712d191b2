import TapeLang.Proofs.Module.Loading
import TapeLang.Proofs.Module.Process

/-!
# Modules refine the interpreter

A module that is loaded and run ends exactly when the interpreter does on a fresh tape. It leaves the
channels in the same state, and its exit status says how the program ended.
-/

namespace TapeLang.Module

open X86 Assembly Transition Native

/-! Images of programs. -/

section

variable {hash : Hash} {p : Program} {e : Emitter} {name : String} {image header text : Bytes}

def Emitter.frame (e : Emitter) (p : Program) : Frame :=
  .of p (SystemCalls.environment e.capacity) e.policy

namespace Process

/-- The prologue makes room for the buffer and takes the tape over. -/
theorem leads_prologue (L : Loaded) (capacity : Nat) (xs : List (Item Label)) (c : Core) :
    ∃ c', Leads L 4 ((expansion [] 0 (SystemCalls.environment capacity).prologue).1 ++ xs) c xs c' ∧
      c'.memory = c.memory ∧ c'.regs.rsp = c.regs.rsp - 16 ∧ c'.regs.rbx = L.address ∧
      c'.regs.r12 = 0 ∧ c'.regs.r13 = UInt64.ofNat capacity := by
  have hroom : c.regs.rsp - signExtend 16 = c.regs.rsp - 16 := by
    rw [(by decide : signExtend 16 = 16)]
  rw [expansion_of_expand (SystemCalls.expand_prologue capacity 0)]
  exact ⟨_, .plain rfl (Core.execute?_subImm c .rsp 16) (.tapeAddress
    (.plain rfl (Core.execute?_movImm64 ..) (.plain rfl (Core.execute?_clear ..) .refl))),
    rfl, hroom, rfl, rfl, rfl⟩

end Process

end

/-! Whole executions. -/

end TapeLang.Module
