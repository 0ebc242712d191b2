import TapeLang.X86.Code
import Mathlib.Algebra.Ring.Nat
import Mathlib.Tactic.Common

/-!
# Decoding undoes encoding

Each part of an instruction is read back from in front of any bytes: extension byte, operand bytes,
displacement, immediate. So an instruction is, and the bytes behind it are left.
-/

namespace TapeLang

theorem Bytes.toNat_ofNat (count value : Nat) :
    Bytes.toNat (Bytes.ofNat count value) = value % 256 ^ count := by
  induction count generalizing value with
  | zero => simp [ofNat, toNat, Nat.mod_one]
  | succ count ih =>
    have hpow : 256 ^ (count + 1) = 256 * 256 ^ count := Nat.pow_succ'
    rw [ofNat, toNat, ih, UInt8.toNat_ofNat', hpow, Nat.mod_mul]

namespace X86

/-! Numbers in front of other bytes. -/

theorem takeNat_append {front : Bytes} {count : Nat} (h : front.length = count) (rest : Bytes) :
    takeNat count (front ++ rest) = some (Bytes.toNat front, rest) := by
  subst h
  simp [takeNat]

private theorem takeNat_ofUInt32 (n : UInt32) (rest : Bytes) :
    takeNat 4 (Bytes.ofUInt32 n ++ rest) = some (n.toNat, rest) := by
  have hlt : n.toNat < 256 ^ 4 := n.toNat_lt
  rw [takeNat_append (Bytes.length_ofUInt32 n), Bytes.ofUInt32, Bytes.toNat_ofNat,
    Nat.mod_eq_of_lt hlt]

private theorem takeNat_ofUInt64 (n : UInt64) (rest : Bytes) :
    takeNat 8 (Bytes.ofUInt64 n ++ rest) = some (n.toNat, rest) := by
  have hlt : n.toNat < 256 ^ 8 := n.toNat_lt
  rw [takeNat_append (Bytes.length_ofUInt64 n), Bytes.ofUInt64, Bytes.toNat_ofNat,
    Nat.mod_eq_of_lt hlt]

private theorem takeInt32_append (i : Int32) (rest : Bytes) :
    takeInt32 (int32Bytes i ++ rest) = some (i, rest) := by
  simp only [takeInt32, int32Bytes, takeNat_ofUInt32, Option.map_some, UInt32.ofNat_toNat,
    Int32.toInt32_toUInt32]

/-! The extension byte. -/

/-- The byte after an extension byte is none itself. -/
def IsOpcode (b : UInt8) : Prop :=
  b.toNat / 16 ≠ 4

instance (b : UInt8) : Decidable (IsOpcode b) :=
  inferInstanceAs (Decidable (_ ≠ _))

private theorem decodeExtension_append (w r x b : Bool) {opcode : UInt8} (h : IsOpcode opcode)
    (rest : Bytes) :
    decodeExtension (extension w r x b ++ opcode :: rest) =
      (⟨w || r || x || b, w, r, x, b⟩, opcode :: rest) := by
  cases w <;> cases r <;> cases x <;> cases b <;>
    first
    | rfl
    | exact if_neg h

/-! Operands. -/

theorem extended_ext_low (r : Reg) : extended r.ext r.low = r := by
  rw [extended, bit, ← Reg.code_eq, Reg.ofCode_code]

private theorem toNat_fields {mode reg rm : Nat} (hmode : mode < 4) (hreg : reg < 8) (hrm : rm < 8) :
    (fields mode reg rm).toNat = 64 * mode + 8 * reg + rm := by
  rw [fields, UInt8.toNat_ofNat', Nat.mod_eq_of_lt (by omega)]

theorem fields_parts {mode reg rm : Nat} (hmode : mode < 4) (hreg : reg < 8) (hrm : rm < 8) :
    (fields mode reg rm).toNat / 64 = mode ∧ (fields mode reg rm).toNat / 8 % 8 = reg ∧
      (fields mode reg rm).toNat % 8 = rm := by
  rw [toNat_fields hmode hreg hrm]
  omega

private theorem toInt32_toInt8_of_fitsByte {disp : Int32} (h : fitsByte disp = true) :
    disp.toInt8.toInt32 = disp := by
  simp only [fitsByte, Bool.and_eq_true, decide_eq_true_eq] at h
  apply Int32.toInt_inj.mp
  rw [Int8.toInt_toInt32, Int32.toInt_toInt8]
  exact Int.bmod_eq_of_le (by omega) (by omega)

private theorem displacement_mode_lt (base : Reg) (disp : Int32) : (displacement base disp).1 < 3 := by
  unfold displacement
  split_ifs <;> simp

private theorem decodeDisplacement_append (base : Reg) (disp : Int32) (rest : Bytes) :
    decodeDisplacement (displacement base disp).1 ((displacement base disp).2 ++ rest) =
      some (disp, rest) := by
  unfold displacement
  split_ifs with hzero hbyte
  · simp [decodeDisplacement, hzero.1]
  · simp [decodeDisplacement, toInt32_toInt8_of_fitsByte hbyte]
  · simp [decodeDisplacement, takeInt32_append]

/-- Without displacement the base is not read as `rbp`, which would mean no base. -/
theorem low_ne_of_mode_zero {base : Reg} {disp : Int32} (h : (displacement base disp).1 = 0) :
    base.low ≠ 5 := by
  unfold displacement at h
  split_ifs at h with hzero
  exact hzero.2

/-- The register field of an operand is at hand as a number below sixteen. -/
theorem register_field {reg : Nat} (h : reg < 16) :
    bit (decide (8 ≤ reg)) 8 + reg % 8 = reg := by
  unfold bit
  split_ifs with hbig <;> simp only [decide_eq_true_eq] at hbig <;> omega

private theorem decodeOperand_reg {ext : Extension} {reg : Nat} (hreg : reg < 16) {rm : Reg}
    (hr : ext.r = decide (8 ≤ reg)) (hb : ext.b = rm.ext) (rest : Bytes) :
    decodeOperand ext (fields 3 (reg % 8) rm.low :: rest) = some (reg, .reg rm, rest) := by
  obtain ⟨hmode, hfield, hrm⟩ :=
    fields_parts (by decide : 3 < 4) (Nat.mod_lt reg (by decide : 0 < 8)) rm.low_lt
  simp only [decodeOperand, hmode, hfield, hrm, if_true, hr, register_field hreg, hb,
    extended_ext_low]

/-- The scale byte of an operand is read back, whether or not it names an index. -/
theorem decodeScaled_append {ext : Extension} {base : Reg} (disp : Int32) {index : Nat}
    {index? : Option Reg} (hindex : index < 8) (hb : ext.b = base.ext)
    (hx : (if extended ext.x index = .rsp then none else some (extended ext.x index)) = index?)
    (rest : Bytes) :
    decodeScaled ext (displacement base disp).1
        (fields 0 index base.low :: ((displacement base disp).2 ++ rest)) =
      some (.mem ⟨base, index?, disp⟩, rest) := by
  obtain ⟨hscale, hfield, hbase⟩ := fields_parts (by decide : 0 < 4) hindex base.low_lt
  have hrefused : ¬(0 ≠ 0 ∨ ((displacement base disp).1 = 0 ∧ base.low = 5)) := by
    rintro (h | ⟨hmode, hlow⟩)
    · exact h rfl
    · exact low_ne_of_mode_zero hmode hlow
  simp only [decodeScaled, hscale, hfield, hbase, if_neg hrefused, decodeDisplacement_append,
    Option.map_some, hx, hb, extended_ext_low]

/-- Memory operands are read back, unless they have `rsp` as an index. -/
theorem decodeOperand_mem {ext : Extension} {reg : Nat} (hreg : reg < 16) {m : Mem}
    (hm : m.index ≠ some .rsp) (hr : ext.r = decide (8 ≤ reg)) (hx : ext.x = m.indexExt)
    (hb : ext.b = m.base.ext) (rest : Bytes) :
    decodeOperand ext (memBytes reg m ++ rest) = some (reg, .mem m, rest) := by
  obtain ⟨base, index, disp⟩ := m
  have hmode := displacement_mode_lt base disp
  have hmod : reg % 8 < 8 := Nat.mod_lt reg (by decide)
  have hnotReg : (displacement base disp).1 ≠ 3 := by omega
  have hfield := register_field hreg
  cases index with
  | some index =>
    obtain ⟨h₁, h₂, h₃⟩ := fields_parts (by omega : (displacement base disp).1 < 4) hmod
      (by decide : 4 < 8)
    have hindex : (if extended ext.x index.low = .rsp then none
        else some (extended ext.x index.low)) = some index := by
      rw [hx, Mem.indexExt, extended_ext_low, if_neg]
      rintro rfl
      exact hm rfl
    simp only [memBytes, List.cons_append, decodeOperand, h₁, h₂, h₃, hnotReg, if_false, if_true,
      decodeScaled_append disp index.low_lt hb hindex, Option.map_some, hr, hfield]
  | none =>
    by_cases hlow : base.low = 4
    · obtain ⟨h₁, h₂, h₃⟩ := fields_parts (by omega : (displacement base disp).1 < 4) hmod
        (by decide : 4 < 8)
      have hindex : (if extended ext.x 4 = .rsp then none
          else some (extended ext.x 4)) = none := by
        rw [hx, Mem.indexExt]
        rfl
      have hscaled := decodeScaled_append disp (by decide : 4 < 8) hb hindex rest
      rw [hlow] at hscaled
      simp only [memBytes, hlow, if_true, List.cons_append, decodeOperand, h₁, h₂, h₃, hnotReg,
        if_false, hscaled, Option.map_some, hr, hfield]
    · obtain ⟨h₁, h₂, h₃⟩ := fields_parts (by omega : (displacement base disp).1 < 4) hmod
        base.low_lt
      have hdirect : ¬((displacement base disp).1 = 0 ∧ base.low = 5) :=
        fun h => low_ne_of_mode_zero h.1 h.2
      simp only [memBytes, hlow, if_false, List.cons_append, decodeOperand, h₁, h₂, h₃, hnotReg,
        hdirect, decodeDisplacement_append, Option.map_some, hr, hfield, hb, extended_ext_low]

/-! Instructions. -/

/-- What is read from the opcode on. -/
def decodeOpcode (ext : Extension) (opcode : UInt8) (rest : Bytes) : Option (Instr × Bytes) :=
  let n := opcode.toNat
  if n = 0x0F then decodeTwoByte ext rest
  else if n = 0xC3 then some (.ret, rest)
  else if n = 0xE9 then (takeInt32 rest).map fun (rel, rest) => (.jmp rel, rest)
  else if n = 0x80 ∨ n = 0x81 then decodeAlu ext n rest
  else if n / 8 = 0x0A ∨ n / 8 = 0x0B ∨ n / 8 = 0x17 then decodeLow ext n rest
  else decodePlain ext n rest

private theorem decode_extension (w r x b : Bool) {opcode : UInt8} (h : IsOpcode opcode) (rest : Bytes) :
    decode (extension w r x b ++ opcode :: rest) =
      decodeOpcode ⟨w || r || x || b, w, r, x, b⟩ opcode rest := by
  rw [decode, decodeExtension_append w r x b h]
  rfl

private theorem decode_bare {opcode : UInt8} (h : IsOpcode opcode) (rest : Bytes) :
    decode (opcode :: rest) = decodeOpcode {} opcode rest :=
  decode_extension false false false false h rest

theorem decode_opReg (w : Bool) {opcode : UInt8} (h : IsOpcode opcode) {reg : Nat} (rm : Reg)
    (rest : Bytes) :
    decode (opReg w [opcode] reg rm ++ rest) =
      decodeOpcode ⟨w || decide (8 ≤ reg) || false || rm.ext, w, decide (8 ≤ reg), false, rm.ext⟩
        opcode (fields 3 (reg % 8) rm.low :: rest) := by
  rw [← decode_extension _ _ _ _ h]
  simp [opReg]

theorem decode_opMem (w : Bool) {opcode : UInt8} (h : IsOpcode opcode) {more : Bytes} {reg : Nat}
    (m : Mem) (rest : Bytes) :
    decode (opMem w (opcode :: more) reg m ++ rest) =
      decodeOpcode ⟨w || decide (8 ≤ reg) || m.indexExt || m.base.ext, w, decide (8 ≤ reg),
        m.indexExt, m.base.ext⟩ opcode (more ++ (memBytes reg m ++ rest)) := by
  rw [← decode_extension _ _ _ _ h]
  simp [opMem]

/-- An opcode with a register in its low bits. -/
theorem decode_opLow (w : Bool) {opcode : Nat} (h : opcode = 0x50 ∨ opcode = 0x58 ∨ opcode = 0xB8)
    (r : Reg) (rest : Bytes) :
    decode (opLow w opcode r ++ rest) =
      decodeLow ⟨w || false || false || r.ext, w, false, false, r.ext⟩ (opcode + r.low) rest := by
  have hlow := r.low_lt
  have hbyte : (UInt8.ofNat (opcode + r.low)).toNat = opcode + r.low := by
    rw [UInt8.toNat_ofNat', Nat.mod_eq_of_lt]
    omega
  have hopcode : IsOpcode (UInt8.ofNat (opcode + r.low)) := by
    rw [IsOpcode, hbyte]
    omega
  rw [opLow, List.append_assoc, List.singleton_append, decode_extension _ _ _ _ hopcode,
    decodeOpcode, hbyte]
  dsimp only
  rw [if_neg (by omega), if_neg (by omega), if_neg (by omega), if_neg (by omega),
    if_pos (by omega)]

theorem code_lt (r : Reg) : r.code < 16 := by
  cases r <;> decide

private theorem Alu.digit_lt (op : Alu) : op.digit < 8 := by
  cases op <;> decide

private theorem Alu.ofDigit?_digit (op : Alu) : Alu.ofDigit? (op.digit % 8) = some op := by
  cases op <;> rfl

theorem index_ne_of_breach {i : Instr} {m : Mem} (h : i.breach? = none) (hm : i.mem? = some m) :
    m.index ≠ some .rsp := by
  intro hindex
  simp [Instr.breach?, hm, hindex] at h

theorem decodePlain_reg {ext : Extension} {reg opcode : Nat} (hreg : reg < 16) {rm : Reg}
    (hr : ext.r = decide (8 ≤ reg)) (hb : ext.b = rm.ext) (rest : Bytes) :
    decodePlain ext opcode (fields 3 (reg % 8) rm.low :: rest) =
      (ofReg? ext opcode reg rm).map (·, rest) := by
  rw [decodePlain, decodeOperand_reg hreg hr hb]

theorem decodePlain_mem {ext : Extension} {reg opcode : Nat} (hreg : reg < 16) {m : Mem}
    (hm : m.index ≠ some .rsp) (hr : ext.r = decide (8 ≤ reg)) (hx : ext.x = m.indexExt)
    (hb : ext.b = m.base.ext) (rest : Bytes) :
    decodePlain ext opcode (memBytes reg m ++ rest) = (ofMem? ext opcode reg m).map (·, rest) := by
  rw [decodePlain, decodeOperand_mem hreg hm hr hx hb]

private theorem decodeAlu_reg {ext : Extension} (op : Alu) {rm : Reg} (imm : Int32)
    (hr : ext.r = decide (8 ≤ op.digit)) (hb : ext.b = rm.ext) (rest : Bytes) :
    decodeAlu ext 0x81 (fields 3 (op.digit % 8) rm.low :: (int32Bytes imm ++ rest)) =
      some (if ext.w then .aluImm op rm imm else .aluImm32 op rm imm, rest) := by
  have hdigit := op.digit_lt
  simp only [decodeAlu, decodeOperand_reg (by omega : op.digit < 16) hr hb, bind, Option.bind,
    op.ofDigit?_digit, takeInt32_append, pure]

private theorem decodeAlu_mem {ext : Extension} (op : Alu) {m : Mem} (imm : UInt8)
    (hm : m.index ≠ some .rsp) (hw : ext.w = false) (hr : ext.r = decide (8 ≤ op.digit))
    (hx : ext.x = m.indexExt) (hb : ext.b = m.base.ext) (rest : Bytes) :
    decodeAlu ext 0x80 (memBytes op.digit m ++ imm :: rest) =
      some (.aluByteImm op m imm, rest) := by
  have hdigit := op.digit_lt
  have himm : takeNat 1 (imm :: rest) = some (imm.toNat, rest) := by
    simp [takeNat, Bytes.toNat]
  simp only [decodeAlu, decodeOperand_mem (by omega : op.digit < 16) hm hr hx hb, bind,
    Option.bind, op.ofDigit?_digit, hw, himm, pure, UInt8.ofNat_toNat]

private theorem decodeTwoByte_jcc {ext : Extension} (c : Cond) (rel : Int32) (rest : Bytes) :
    decodeTwoByte ext (UInt8.ofNat (0x80 + c.code) :: (int32Bytes rel ++ rest)) =
      some (.jcc c rel, rest) := by
  cases c <;> simp [decodeTwoByte, Cond.code, Cond.ofCode?, takeInt32_append]

/-- An instruction that can be encoded is read back from in front of any bytes. -/
theorem decode_encode {i : Instr} (h : i.breach? = none) (rest : Bytes) :
    decode (i.encode ++ rest) = some (i, rest) := by
  cases i with
  | push r =>
    have hlow := r.low_lt
    rw [Instr.encode, decode_opLow false (.inl rfl)]
    simp only [decodeLow, show (0x50 + r.low) / 8 = 0x0A by omega,
      show (0x50 + r.low) % 8 = r.low by omega, extended_ext_low]
  | pop r =>
    have hlow := r.low_lt
    rw [Instr.encode, decode_opLow false (.inr (.inl rfl))]
    simp only [decodeLow, show (0x58 + r.low) / 8 = 0x0B by omega,
      show (0x58 + r.low) % 8 = r.low by omega, extended_ext_low]
  | ret => exact decode_bare (by decide) rest
  | syscall => exact decode_bare (by decide) (0x05 :: rest)
  | mov dst src =>
    rw [Instr.encode, decode_opReg true (by decide), decodeOpcode]
    simp [decodePlain_reg (code_lt src), ofReg?]
  | load dst m =>
    rw [Instr.encode, decode_opMem true (by decide), decodeOpcode]
    simp [decodePlain_mem (code_lt dst) (index_ne_of_breach h rfl), ofMem?]
  | store m src =>
    rw [Instr.encode, decode_opMem true (by decide), decodeOpcode]
    simp [decodePlain_mem (code_lt src) (index_ne_of_breach h rfl), ofMem?]
  | storeByte m src =>
    have hsrc : src.code < 4 := by
      by_contra hbig
      simp [Instr.breach?, hbig] at h
    rw [Instr.encode, decode_opMem false (by decide), decodeOpcode]
    simp [decodePlain_mem (code_lt src) (index_ne_of_breach h rfl), ofMem?, hsrc]
  | loadByte dst m =>
    rw [Instr.encode, decode_opMem false (by decide), decodeOpcode]
    simp [decodeTwoByte, decodeOperand_mem (code_lt dst) (index_ne_of_breach h rfl)]
  | movImm32 dst imm =>
    have hlow := dst.low_lt
    rw [Instr.encode, List.append_assoc, decode_opLow false (.inr (.inr rfl))]
    simp only [decodeLow, show (0xB8 + dst.low) / 8 = 0x17 by omega,
      show (0xB8 + dst.low) % 8 = dst.low by omega, extended_ext_low, takeNat_ofUInt32]
    simp
  | movImm64 dst imm =>
    have hlow := dst.low_lt
    rw [Instr.encode, List.append_assoc, decode_opLow true (.inr (.inr rfl))]
    simp only [decodeLow, show (0xB8 + dst.low) / 8 = 0x17 by omega,
      show (0xB8 + dst.low) % 8 = dst.low by omega, extended_ext_low, takeNat_ofUInt64]
    simp
  | aluImm op dst imm =>
    rw [Instr.encode, List.append_assoc, decode_opReg true (by decide), decodeOpcode]
    simp [decodeAlu_reg]
  | aluImm32 op dst imm =>
    rw [Instr.encode, List.append_assoc, decode_opReg false (by decide), decodeOpcode]
    simp [decodeAlu_reg]
  | aluByteImm op m imm =>
    rw [Instr.encode, List.append_assoc, decode_opMem false (by decide), decodeOpcode]
    simp [decodeAlu_mem op imm (index_ne_of_breach h rfl)]
  | cmp a b =>
    rw [Instr.encode, decode_opReg true (by decide), decodeOpcode]
    simp [decodePlain_reg (code_lt b), ofReg?]
  | test a b =>
    rw [Instr.encode, decode_opReg true (by decide), decodeOpcode]
    simp [decodePlain_reg (code_lt b), ofReg?]
  | test32 a b =>
    rw [Instr.encode, decode_opReg false (by decide), decodeOpcode]
    simp [decodePlain_reg (code_lt b), ofReg?]
  | xor32 dst src =>
    rw [Instr.encode, decode_opReg false (by decide), decodeOpcode]
    simp [decodePlain_reg (code_lt src), ofReg?]
  | lea dst m =>
    rw [Instr.encode, decode_opMem true (by decide), decodeOpcode]
    simp [decodePlain_mem (code_lt dst) (index_ne_of_breach h rfl), ofMem?]
  | callMem m =>
    rw [Instr.encode, decode_opMem false (by decide), decodeOpcode]
    simp [decodePlain_mem (by decide : 2 < 16) (index_ne_of_breach h rfl), ofMem?]
  | jmp rel =>
    rw [Instr.encode, List.cons_append, decode_bare (by decide), decodeOpcode]
    simp [takeInt32_append]
  | jcc c rel =>
    rw [Instr.encode, List.cons_append, List.cons_append, decode_bare (by decide)]
    exact decodeTwoByte_jcc c rel rest

/-! Instructions in code. -/

theorem length_extension_le (w r x b : Bool) : (extension w r x b).length ≤ 1 := by
  unfold extension
  dsimp only
  split_ifs <;> simp

private theorem length_displacement_le (base : Reg) (disp : Int32) :
    (displacement base disp).2.length ≤ 4 := by
  unfold displacement
  split_ifs <;> simp [int32Bytes]

private theorem length_memBytes_le (reg : Nat) (m : Mem) : (memBytes reg m).length ≤ 6 := by
  have := length_displacement_le m.base m.disp
  unfold memBytes
  dsimp only
  split
  · simp only [List.length_cons]
    omega
  · split_ifs <;> simp only [List.length_cons] <;> omega

theorem length_opMem_le (w : Bool) (opcode : Bytes) (reg : Nat) (m : Mem) :
    (opMem w opcode reg m).length ≤ opcode.length + 7 := by
  have := length_extension_le w (decide (8 ≤ reg)) m.indexExt m.base.ext
  have := length_memBytes_le reg m
  simp only [opMem, List.length_append]
  omega

theorem length_opReg_le (w : Bool) (opcode : Bytes) (reg : Nat) (rm : Reg) :
    (opReg w opcode reg rm).length ≤ opcode.length + 2 := by
  have := length_extension_le w (decide (8 ≤ reg)) false rm.ext
  simp only [opReg, List.length_append, List.length_singleton]
  omega

private theorem length_opLow_le (w : Bool) (opcode : Nat) (r : Reg) : (opLow w opcode r).length ≤ 2 := by
  have := length_extension_le w false false r.ext
  simp only [opLow, List.length_append, List.length_singleton]
  omega

@[simp] theorem length_int32Bytes (i : Int32) : (int32Bytes i).length = 4 :=
  Bytes.length_ofUInt32 _

theorem length_encode_le (i : Instr) : i.encode.length ≤ longestInstruction := by
  cases i with
  | push r => exact Nat.le_trans (length_opLow_le false 0x50 r) (by decide)
  | pop r => exact Nat.le_trans (length_opLow_le false 0x58 r) (by decide)
  | ret => decide
  | syscall => decide
  | mov dst src => exact Nat.le_trans (length_opReg_le true [0x89] src.code dst) (by decide)
  | load dst m => exact Nat.le_trans (length_opMem_le true [0x8B] dst.code m) (by decide)
  | store m src => exact Nat.le_trans (length_opMem_le true [0x89] src.code m) (by decide)
  | storeByte m src => exact Nat.le_trans (length_opMem_le false [0x88] src.code m) (by decide)
  | loadByte dst m => exact Nat.le_trans (length_opMem_le false [0x0F, 0xB6] dst.code m) (by decide)
  | movImm32 dst imm =>
    have := length_opLow_le false 0xB8 dst
    simp only [Instr.encode, List.length_append, Bytes.length_ofUInt32, longestInstruction]
    omega
  | movImm64 dst imm =>
    have := length_opLow_le true 0xB8 dst
    simp only [Instr.encode, List.length_append, Bytes.length_ofUInt64, longestInstruction]
    omega
  | aluImm op dst imm =>
    have := length_opReg_le true [0x81] op.digit dst
    simp only [Instr.encode, List.length_append, length_int32Bytes, longestInstruction,
      List.length_singleton] at this ⊢
    omega
  | aluImm32 op dst imm =>
    have := length_opReg_le false [0x81] op.digit dst
    simp only [Instr.encode, List.length_append, length_int32Bytes, longestInstruction,
      List.length_singleton] at this ⊢
    omega
  | aluByteImm op m imm =>
    have := length_opMem_le false [0x80] op.digit m
    simp only [Instr.encode, List.length_append, longestInstruction,
      List.length_singleton] at this ⊢
    omega
  | cmp a b => exact Nat.le_trans (length_opReg_le true [0x39] b.code a) (by decide)
  | test a b => exact Nat.le_trans (length_opReg_le true [0x85] b.code a) (by decide)
  | test32 a b => exact Nat.le_trans (length_opReg_le false [0x85] b.code a) (by decide)
  | xor32 dst src => exact Nat.le_trans (length_opReg_le false [0x31] src.code dst) (by decide)
  | lea dst m => exact Nat.le_trans (length_opMem_le true [0x8D] dst.code m) (by decide)
  | callMem m => exact Nat.le_trans (length_opMem_le false [0xFF] 2 m) (by decide)
  | jmp rel => simp [Instr.encode, longestInstruction]
  | jcc c rel => simp [Instr.encode, longestInstruction]

/-- No instruction is empty: there is nothing to read in front of no bytes. -/
theorem length_encode_pos {i : Instr} (h : i.breach? = none) : 0 < i.encode.length := by
  by_contra hzero
  have hempty : i.encode = [] := List.length_eq_zero_iff.mp (by omega)
  have hdecode := decode_encode h []
  rw [hempty] at hdecode
  simp [decode, decodeExtension] at hdecode

/-- Where code holds the bytes of an instruction, that instruction is decoded. -/
theorem decodeAt_encode {bytes : Array UInt8} {i : Instr} {front back : Bytes}
    (h : bytes.toList = front ++ (i.encode ++ back)) (hi : i.breach? = none) :
    decodeAt bytes front.length = some (i, i.encode.length) := by
  have hlong := length_encode_le i
  have hwindow : (bytes.extract front.length (front.length + longestInstruction)).toList =
      i.encode ++ back.take (longestInstruction - i.encode.length) := by
    rw [Array.toList_extract, List.extract_eq_take_drop, h, Nat.add_sub_cancel_left,
      List.drop_left, List.take_append, List.take_of_length_le hlong]
  simp only [decodeAt, hwindow, decode_encode hi, List.length_append, Nat.add_sub_cancel]

theorem fetch?_encode {c : Code} {i : Instr} {front back : Bytes}
    (h : c.bytes.toList = front ++ (i.encode ++ back)) (hi : i.breach? = none)
    (hsmall : c.bytes.size ≤ UInt64.size) :
    c.fetch? (c.base + UInt64.ofNat front.length) = some (i, i.encode.length) := by
  have hlength : c.bytes.size = front.length + (i.encode.length + back.length) := by
    rw [← Array.length_toList, h, List.length_append, List.length_append]
  have hpos := length_encode_pos hi
  have hindex : (c.base + UInt64.ofNat front.length - c.base).toNat = front.length := by
    rw [UInt64.add_comm, UInt64.add_sub_cancel, UInt64.toNat_ofNat_of_lt' (by omega)]
  rw [c.fetch?_eq _ (by omega), hindex]
  exact decodeAt_encode h hi

end X86

end TapeLang
