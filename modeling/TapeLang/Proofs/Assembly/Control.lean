import TapeLang.Proofs.Assembly.Resolution
import TapeLang.Proofs.X86.Core
import TapeLang.Proofs.Transition

/-!
# Running assembled code

A machine runs the code of items the way the items read: it goes on behind an instruction, and a
branch that is taken leads to the last binding of its label. `Leads` says so without addresses;
`Leads.reaches` turns it into steps of the machine.
-/

namespace TapeLang

namespace Assembly

open X86 Transition

/-- Items whose code lies in memory, behind a header. -/
structure Loaded where
  items : List (Item Label)
  labels : Nat
  /-- The address of the tape. -/
  address : UInt64
  header : Bytes
  text : Bytes
  code : Code
  assembled : codeBytes (bindings labels items) address 0 items = .ok text
  placed : code.bytes.toList = header ++ text
  fits : code.bytes.size ≤ UInt64.size
  encodable : ∀ item ∈ items, item.breach? = none

namespace Loaded

variable {L : Loaded} {item : Item Label} {i : Instr} {l : Label} {cond : Cond}
  {rest target : List (Item Label)} {rip : UInt64} {c : Core}

/-- The address of the first item. -/
def origin (L : Loaded) : UInt64 :=
  L.code.base + UInt64.ofNat L.header.length

/-- The code at an address is that of the items from some place on. -/
def At (L : Loaded) (rest : List (Item Label)) (rip : UInt64) : Prop :=
  ∃ front, L.items = front ++ rest ∧ rip = L.origin + UInt64.ofNat (sizes front)

/-- The items from the last binding of a label on. -/
def Bound (L : Loaded) (l : Label) (target : List (Item Label)) : Prop :=
  l < L.labels ∧ ∃ front tail, L.items = front ++ target ∧ target = .bind l :: tail ∧
    l ∉ boundLabels tail

theorem At.next (h : L.At (item :: rest) rip) : L.At rest (rip + UInt64.ofNat item.size) := by
  obtain ⟨front, hitems, rfl⟩ := h
  refine ⟨front ++ [item], by simp [hitems], ?_⟩
  simp [UInt64.ofNat_add, UInt64.add_assoc]

theorem At.next_bind (h : L.At (.bind l :: rest) rip) : L.At rest rip := by
  simpa using h.next

/-- The instruction at an item, which was resolved for the item's own offset. -/
theorem fetch?_of_items {front : List (Item Label)} (hitems : L.items = front ++ item :: rest) :
    ∃ i?, item.resolve (bindings L.labels L.items) L.address (sizes front) = .ok i? ∧
      ∀ i, i? = some i → i.breach? = none →
        L.code.fetch? (L.origin + UInt64.ofNat (sizes front)) = some (i, item.size) := by
  have hassembled := L.assembled
  rw [hitems] at hassembled
  obtain ⟨before, behind, hbefore, hbehind, htext⟩ := codeBytes_append.mp hassembled
  obtain ⟨i?, hi, hrest⟩ := Except.bind_eq_ok.mp hbehind
  obtain ⟨more, -, rfl⟩ := Except.map_eq_ok.mp hrest
  rw [Nat.zero_add] at hi
  refine ⟨i?, by rwa [hitems], ?_⟩
  rintro i rfl hbreach
  have hbytes : L.code.bytes.toList = (L.header ++ before) ++ (i.encode ++ more) := by
    rw [L.placed, htext]
    simp [encodeOption]
  have hfetch := fetch?_encode hbytes hbreach L.fits
  rw [List.length_append, length_codeBytes hbefore, UInt64.ofNat_add, ← UInt64.add_assoc] at hfetch
  rw [← length_encodeOption hi]
  exact hfetch

theorem At.fetch (h : L.At (item :: rest) rip) :
    ∃ offset i?, rip = L.origin + UInt64.ofNat offset ∧
      item.resolve (bindings L.labels L.items) L.address offset = .ok i? ∧
      ∀ i, i? = some i → i.breach? = none → L.code.fetch? rip = some (i, item.size) := by
  obtain ⟨front, hitems, rfl⟩ := h
  obtain ⟨i?, hi, hfetch⟩ := fetch?_of_items hitems
  exact ⟨sizes front, i?, rfl, hi, hfetch⟩

theorem At.unique {rip' : UInt64} (h : L.At rest rip) (h' : L.At rest rip') : rip = rip' := by
  obtain ⟨front, hitems, rfl⟩ := h
  obtain ⟨front', hitems', rfl⟩ := h'
  rw [List.append_cancel_right (hitems.symm.trans hitems')]

/-- A resolved displacement leads from behind the branch to the label. -/
theorem Bound.at_lands {offset length : Nat} {rel : Int32} (h : L.Bound l target)
    (hrel : displacementTo (bindings L.labels L.items) l (offset + length) = .ok rel) :
    L.At target (L.origin + UInt64.ofNat offset + UInt64.ofNat (length + 4) + signExtend rel) := by
  obtain ⟨hl, front, tail, hitems, rfl, hlast⟩ := h
  obtain ⟨place, hplace, hlands⟩ := displacementTo_lands hrel
  rw [bindings_eq_some hitems hlast hl, Option.some.injEq] at hplace
  refine ⟨front, hitems, ?_⟩
  rw [hplace, ← hlands, Nat.add_assoc, UInt64.ofNat_add offset, UInt64.add_assoc, UInt64.add_assoc,
    UInt64.add_assoc]

/-- Where every label is bound once, each binding is the last. -/
theorem bound_of_once {front : List (Item Label)}
    (once : ∀ l, (boundLabels L.items).count l = if l < L.labels then 1 else 0)
    (h : L.items = front ++ .bind l :: rest) : L.Bound l (.bind l :: rest) := by
  have hcount := once l
  rw [h, boundLabels_append, boundLabels_bind, List.count_append, List.count_cons_self] at hcount
  have hl : l < L.labels := by
    by_contra hl
    simp [hl] at hcount
  rw [if_pos hl] at hcount
  exact ⟨hl, front, rest, h, rfl, List.count_eq_zero.mp (by omega)⟩

theorem At.breach? (h : L.At (.plain i :: rest) rip) : i.breach? = none := by
  obtain ⟨front, hitems, -⟩ := h
  exact L.encodable (.plain i) (by simp [hitems])

theorem At.fetch_plain (h : L.At (.plain i :: rest) rip) (hcode : c.memory.code = L.code) :
    c.memory.code.fetch? rip = some (i, (Item.plain i : Item Label).size) := by
  obtain ⟨offset, i?, -, hi, hfetch⟩ := h.fetch
  obtain rfl := Except.ok.inj hi
  rw [hcode, hfetch i rfl h.breach?]

/-! One step of the machine at each kind of item. -/

theorem At.next?_straight {c' : Core} (h : L.At (.plain i :: rest) rip)
    (hcode : c.memory.code = L.code) (hi : i.isStraight = true) (hc : c.execute? i = some c') :
    ∃ rip', L.At rest rip' ∧ (c.at rip).next? = some (c'.at rip') := by
  have hne : i ≠ .syscall := by
    rintro rfl
    cases hi
  refine ⟨_, h.next, ?_⟩
  rw [Core.next?_of_fetch (h.fetch_plain hcode) hne, Core.execute?_at hi, hc, Option.map_some]

theorem At.next?_tapeAddress {dst : Reg} (h : L.At (.tapeAddress dst :: rest) rip)
    (hcode : c.memory.code = L.code) :
    ∃ rip', L.At rest rip' ∧
      (c.at rip).next? = some (Core.at { c with regs := c.regs.set dst L.address } rip') := by
  obtain ⟨offset, i?, -, hi, hfetch⟩ := h.fetch
  obtain rfl := Except.ok.inj hi
  refine ⟨_, h.next, ?_⟩
  rw [← hcode] at hfetch
  rw [Core.next?_of_fetch (hfetch _ rfl rfl) (by simp)]
  rfl

theorem size_jump (l : Label) : (Item.jump l).size = 5 := by
  simp [Item.size, Item.template, Instr.encode]

theorem size_branch (cond : Cond) (l : Label) : (Item.branch cond l).size = 6 := by
  simp [Item.size, Item.template, Instr.encode]

theorem At.next?_jump (h : L.At (.jump l :: rest) rip) (hl : L.Bound l target)
    (hcode : c.memory.code = L.code) :
    ∃ rip', L.At target rip' ∧ (c.at rip).next? = some (c.at rip') := by
  obtain ⟨offset, i?, rfl, hi, hfetch⟩ := h.fetch
  obtain ⟨rel, hrel, rfl⟩ := Except.map_eq_ok.mp hi
  rw [← hcode, size_jump] at hfetch
  refine ⟨_, hl.at_lands hrel, ?_⟩
  rw [Core.next?_of_fetch (hfetch _ rfl rfl) (by simp)]
  rfl

theorem At.next?_taken (h : L.At (.branch cond l :: rest) rip) (hl : L.Bound l target)
    (hcode : c.memory.code = L.code) (hcond : cond.holds c.flags = true) :
    ∃ rip', L.At target rip' ∧ (c.at rip).next? = some (c.at rip') := by
  obtain ⟨offset, i?, rfl, hi, hfetch⟩ := h.fetch
  obtain ⟨rel, hrel, rfl⟩ := Except.map_eq_ok.mp hi
  rw [← hcode, size_branch] at hfetch
  refine ⟨_, hl.at_lands hrel, ?_⟩
  rw [Core.next?_of_fetch (hfetch _ rfl rfl) (by simp)]
  simp only [Machine.execute?, Core.at, hcond, if_true]

theorem At.next?_passed (h : L.At (.branch cond l :: rest) rip) (hcode : c.memory.code = L.code)
    (hcond : cond.holds c.flags = false) :
    ∃ rip', L.At rest rip' ∧ (c.at rip).next? = some (c.at rip') := by
  obtain ⟨offset, i?, -, hi, hfetch⟩ := h.fetch
  obtain ⟨rel, -, rfl⟩ := Except.map_eq_ok.mp hi
  refine ⟨_, h.next, ?_⟩
  rw [← hcode] at hfetch
  rw [Core.next?_of_fetch (hfetch _ rfl rfl) (by simp)]
  simp [Machine.execute?, Core.at, hcond]

end Loaded

/-- `Leads L n xs c ys d`: in `n` steps, code at the items `xs` takes the core `c` to `d` at `ys`. -/
inductive Leads (L : Loaded) :
    Nat → List (Item Label) → Core → List (Item Label) → Core → Prop where
  | refl {xs : List (Item Label)} {c : Core} : Leads L 0 xs c xs c
  | bind {n : Nat} {l : Label} {xs ys : List (Item Label)} {c d : Core}
      (tail : Leads L n xs c ys d) : Leads L n (.bind l :: xs) c ys d
  | plain {n : Nat} {i : Instr} {xs ys : List (Item Label)} {c c' d : Core}
      (straight : i.isStraight = true) (executed : c.execute? i = some c')
      (tail : Leads L n xs c' ys d) : Leads L (n + 1) (.plain i :: xs) c ys d
  | tapeAddress {n : Nat} {dst : Reg} {xs ys : List (Item Label)} {c d : Core}
      (tail : Leads L n xs { c with regs := c.regs.set dst L.address } ys d) :
      Leads L (n + 1) (.tapeAddress dst :: xs) c ys d
  | jump {n : Nat} {l : Label} {xs target ys : List (Item Label)} {c d : Core}
      (bound : L.Bound l target) (tail : Leads L n target c ys d) :
      Leads L (n + 1) (.jump l :: xs) c ys d
  | taken {n : Nat} {cond : Cond} {l : Label} {xs target ys : List (Item Label)} {c d : Core}
      (holds : cond.holds c.flags = true) (bound : L.Bound l target)
      (tail : Leads L n target c ys d) : Leads L (n + 1) (.branch cond l :: xs) c ys d
  | passed {n : Nat} {cond : Cond} {l : Label} {xs ys : List (Item Label)} {c d : Core}
      (holds : cond.holds c.flags = false) (tail : Leads L n xs c ys d) :
      Leads L (n + 1) (.branch cond l :: xs) c ys d

namespace Leads

variable {L : Loaded} {m n : Nat} {xs ys zs : List (Item Label)} {c d e : Core}

theorem trans (h : Leads L m xs c ys d) (h' : Leads L n ys d zs e) : Leads L (m + n) xs c zs e := by
  induction h with
  | refl => simpa using h'
  | bind _ ih => exact .bind (ih h')
  | plain straight executed _ ih => rw [Nat.add_right_comm]; exact .plain straight executed (ih h')
  | tapeAddress _ ih => rw [Nat.add_right_comm]; exact .tapeAddress (ih h')
  | jump bound _ ih => rw [Nat.add_right_comm]; exact .jump bound (ih h')
  | taken holds bound _ ih => rw [Nat.add_right_comm]; exact .taken holds bound (ih h')
  | passed holds _ ih => rw [Nat.add_right_comm]; exact .passed holds (ih h')

/-- A system that contains the machine takes the steps. -/
theorem reaches {σ : Type} {next? : σ → Option σ} {e : Machine → σ}
    (lift : ∀ m m', m.memory.code = L.code → m.next? = some m' → next? (e m) = some (e m'))
    (h : Leads L n xs c ys d) {rip : UInt64} (hat : L.At xs rip) (hcode : c.memory.code = L.code) :
    ∃ rip', Reaches next? n (e (c.at rip)) (e (d.at rip')) ∧ L.At ys rip' ∧
      d.memory.code = L.code := by
  induction h generalizing rip with
  | refl => exact ⟨rip, .refl _, hat, hcode⟩
  | bind _ ih => exact ih hat.next_bind hcode
  | plain straight executed _ ih =>
    obtain ⟨rip', hat', hnext⟩ := hat.next?_straight hcode straight executed
    obtain ⟨rip'', hreach, hys⟩ := ih hat' ((Core.code_execute? executed).trans hcode)
    exact ⟨rip'', .step (lift _ _ hcode hnext) hreach, hys⟩
  | tapeAddress _ ih =>
    obtain ⟨rip', hat', hnext⟩ := hat.next?_tapeAddress hcode
    obtain ⟨rip'', hreach, hys⟩ := ih hat' hcode
    exact ⟨rip'', .step (lift _ _ hcode hnext) hreach, hys⟩
  | jump bound _ ih =>
    obtain ⟨rip', hat', hnext⟩ := hat.next?_jump bound hcode
    obtain ⟨rip'', hreach, hys⟩ := ih hat' hcode
    exact ⟨rip'', .step (lift _ _ hcode hnext) hreach, hys⟩
  | taken holds bound _ ih =>
    obtain ⟨rip', hat', hnext⟩ := hat.next?_taken bound hcode holds
    obtain ⟨rip'', hreach, hys⟩ := ih hat' hcode
    exact ⟨rip'', .step (lift _ _ hcode hnext) hreach, hys⟩
  | passed holds _ ih =>
    obtain ⟨rip', hat', hnext⟩ := hat.next?_passed hcode holds
    obtain ⟨rip'', hreach, hys⟩ := ih hat' hcode
    exact ⟨rip'', .step (lift _ _ hcode hnext) hreach, hys⟩

end Leads

end Assembly

end TapeLang
