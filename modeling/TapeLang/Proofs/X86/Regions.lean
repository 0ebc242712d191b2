import TapeLang.X86.Memory
import TapeLang.Proofs.X86.RoundTrip

/-!
# Regions that lie apart

Where no address is in two regions, a load or a store concerns the one region that holds the address.
A region is described by its bytes, cut where it is read or written.
-/

namespace TapeLang.X86

namespace Region

theorem index_offset {g : Region} {n : Nat} (h : n < UInt64.size) :
    g.index (g.base + UInt64.ofNat n) = n := by
  have hsub : g.base + UInt64.ofNat n - g.base = UInt64.ofNat n := by grind
  rw [index, hsub, UInt64.toNat_ofNat_of_lt' h]

theorem contains_offset {g : Region} {n : Nat} (h : n < g.bytes.size)
    (fits : g.bytes.size ≤ UInt64.size) : g.contains (g.base + UInt64.ofNat n) = true := by
  rw [contains, index_offset (Nat.lt_of_lt_of_le h fits)]
  exact decide_eq_true h

theorem load?_offset {g : Region} {n : Nat} (h : n < UInt64.size) :
    g.load? (g.base + UInt64.ofNat n) = g.bytes[n]? := by
  rw [load?, index_offset h]

theorem store_offset {g : Region} {n : Nat} (h : n < UInt64.size) (b : UInt8) :
    g.store (g.base + UInt64.ofNat n) b = ⟨g.base, g.bytes.setIfInBounds n b⟩ := by
  have hindex := index_offset (g := g) h
  obtain ⟨base, bytes⟩ := g
  rw [index] at hindex
  simp only [store, hindex]

end Region

/-- No address is in both of two regions, given by base and size. -/
def Apart (base : UInt64) (size : Nat) (base' : UInt64) (size' : Nat) : Prop :=
  ∀ a : UInt64, (a - base).toNat < size → ¬ (a - base').toNat < size'

theorem Apart.of_le {base base' : UInt64} {size size' : Nat} (h : base.toNat + size ≤ base'.toNat)
    (h' : base'.toNat + size' ≤ UInt64.size) : Apart base size base' size' := by
  intro a ha ha'
  have hsize : UInt64.size = 2 ^ 64 := rfl
  have hlt := a.toNat_lt
  rw [UInt64.toNat_sub] at ha ha'
  omega

/-- The regions that may be written. -/
inductive Area where
  | tape | context | stack
  deriving DecidableEq

namespace Memory

def area (m : Memory) : Area → Region
  | .tape => m.tape
  | .context => m.context
  | .stack => m.stack

def replace (m : Memory) (k : Area) (g : Region) : Memory :=
  match k with
  | .tape => { m with tape := g }
  | .context => { m with context := g }
  | .stack => { m with stack := g }

@[simp] theorem area_replace_self (m : Memory) (k : Area) (g : Region) :
    (m.replace k g).area k = g := by
  cases k <;> rfl

private theorem area_replace_of_ne (m : Memory) {k k' : Area} (g : Region) (h : k' ≠ k) :
    (m.replace k g).area k' = m.area k' := by
  cases k <;> cases k' <;> first | rfl | exact absurd rfl h

@[simp] theorem replace_replace (m : Memory) (k : Area) (g g' : Region) :
    (m.replace k g).replace k g' = m.replace k g' := by
  cases k <;> rfl

@[simp] theorem replace_area (m : Memory) (k : Area) : m.replace k (m.area k) = m := by
  cases k <;> rfl

/-- No address is in two regions. -/
def Separate (m : Memory) : Prop :=
  ∀ k k' a, (m.area k).contains a = true → (m.area k').contains a = true → k = k'

variable {m : Memory} {k : Area} {a : UInt64} {b : UInt8} {g : Region}

/-- Only where the regions lie and how large they are decides whether they are apart. -/
theorem Separate.replace (sep : m.Separate) (hbase : g.base = (m.area k).base)
    (hsize : g.bytes.size = (m.area k).bytes.size) : (m.replace k g).Separate := by
  have same : ∀ k' a, ((m.replace k g).area k').contains a = (m.area k').contains a := by
    intro k' a
    by_cases hk : k' = k
    · subst hk
      rw [area_replace_self, Region.contains, Region.contains, Region.index, Region.index, hbase,
        hsize]
    · rw [area_replace_of_ne m g hk]
  intro k₁ k₂ a h₁ h₂
  rw [same] at h₁ h₂
  exact sep k₁ k₂ a h₁ h₂

theorem separate_of_apart
    (h₁ : Apart m.tape.base m.tape.bytes.size m.context.base m.context.bytes.size)
    (h₂ : Apart m.tape.base m.tape.bytes.size m.stack.base m.stack.bytes.size)
    (h₃ : Apart m.context.base m.context.bytes.size m.stack.base m.stack.bytes.size) :
    m.Separate := by
  intro k k' a hk hk'
  have hin := of_decide_eq_true hk
  have hin' := of_decide_eq_true hk'
  cases k <;> cases k'
  case tape.tape | context.context | stack.stack => rfl
  case tape.context => exact absurd hin' (h₁ a hin)
  case tape.stack => exact absurd hin' (h₂ a hin)
  case context.tape => exact absurd hin (h₁ a hin')
  case context.stack => exact absurd hin' (h₃ a hin)
  case stack.tape => exact absurd hin (h₂ a hin')
  case stack.context => exact absurd hin (h₃ a hin')

/-- The other regions do not hold an address that one holds. -/
theorem Separate.contains_eq_false (sep : m.Separate) (h : (m.area k).contains a = true) (k' : Area)
    (hk : k' ≠ k) : (m.area k').contains a = false := by
  cases h' : (m.area k').contains a with
  | false => rfl
  | true => exact absurd (sep k' k a h' h) hk

theorem load?_area (sep : m.Separate) (h : (m.area k).contains a = true) :
    m.load? a = (m.area k).load? a := by
  have other := sep.contains_eq_false h
  cases k with
  | tape =>
    have htape : m.tape.contains a = true := h
    simp [load?, area, htape]
  | context =>
    have htape : m.tape.contains a = false := other .tape (by decide)
    have hcontext : m.context.contains a = true := h
    simp [load?, area, htape, hcontext]
  | stack =>
    have htape : m.tape.contains a = false := other .tape (by decide)
    have hcontext : m.context.contains a = false := other .context (by decide)
    have hstack : m.stack.contains a = true := h
    simp [load?, area, htape, hcontext, hstack]

theorem store?_area (sep : m.Separate) (h : (m.area k).contains a = true) (b : UInt8) :
    m.store? a b = some (m.replace k ((m.area k).store a b)) := by
  have other := sep.contains_eq_false h
  cases k with
  | tape =>
    have htape : m.tape.contains a = true := h
    simp [store?, area, Memory.replace, htape]
  | context =>
    have htape : m.tape.contains a = false := other .tape (by decide)
    have hcontext : m.context.contains a = true := h
    simp [store?, area, Memory.replace, htape, hcontext]
  | stack =>
    have htape : m.tape.contains a = false := other .tape (by decide)
    have hcontext : m.context.contains a = false := other .context (by decide)
    have hstack : m.stack.contains a = true := h
    simp [store?, area, Memory.replace, htape, hcontext, hstack]

/-! Byte strings in a region. -/

variable {base : UInt64} {front bytes old new back : Bytes}

theorem loadBytes?_area (sep : m.Separate) (hk : m.area k = ⟨base, (front ++ bytes ++ back).toArray⟩)
    (fits : (front ++ bytes ++ back).length ≤ UInt64.size) :
    m.loadBytes? (base + UInt64.ofNat front.length) bytes.length = some bytes := by
  induction bytes generalizing front with
  | nil => rfl
  | cons b rest ih =>
    have hregion : front ++ b :: rest ++ back = (front ++ [b]) ++ rest ++ back := by simp
    have hinside : front.length < (m.area k).bytes.size := by
      simp [hk]
    have hword : front.length < UInt64.size := by
      simp only [List.length_append, List.length_cons] at fits
      omega
    have hcontains := Region.contains_offset hinside (by simpa [hk] using fits)
    have hload : m.load? (base + UInt64.ofNat front.length) = some b := by
      have h := Memory.load?_area sep hcontains
      rw [Region.load?_offset hword, hk] at h
      simpa using h
    have hnext : base + UInt64.ofNat front.length + 1 = base + UInt64.ofNat (front ++ [b]).length := by
      rw [List.length_append, UInt64.ofNat_add, ← UInt64.add_assoc]
      rfl
    have hrest : m.loadBytes? (base + UInt64.ofNat (front ++ [b]).length) rest.length = some rest :=
      ih (by rw [hk, hregion]) (by rwa [hregion] at fits)
    rw [List.length_cons, loadBytes?, hload, hnext, hrest]
    rfl

theorem storeBytes?_area (sep : m.Separate) (hk : m.area k = ⟨base, (front ++ old ++ back).toArray⟩)
    (fits : (front ++ old ++ back).length ≤ UInt64.size) (hlength : new.length = old.length) :
    m.storeBytes? (base + UInt64.ofNat front.length) new =
      some (m.replace k ⟨base, (front ++ new ++ back).toArray⟩) := by
  induction new generalizing m front old with
  | nil =>
    obtain rfl : old = [] := List.eq_nil_of_length_eq_zero hlength.symm
    rw [← hk, replace_area, storeBytes?]
  | cons b rest ih =>
    obtain ⟨o, old, rfl⟩ := List.exists_cons_of_length_eq_add_one hlength.symm
    have hinside : front.length < (m.area k).bytes.size := by
      simp [hk]
    have hword : front.length < UInt64.size := by
      simp only [List.length_append, List.length_cons] at fits
      omega
    have hcontains := Region.contains_offset hinside (by simpa [hk] using fits)
    have hstore : m.store? (base + UInt64.ofNat front.length) b =
        some (m.replace k ⟨base, ((front ++ [b]) ++ old ++ back).toArray⟩) := by
      have h := Memory.store?_area sep hcontains b
      rw [Region.store_offset hword, hk] at h
      simpa using h
    have hsep : (m.replace k ⟨base, ((front ++ [b]) ++ old ++ back).toArray⟩).Separate :=
      sep.replace (by rw [hk]) (by simp [hk])
    have hnext : base + UInt64.ofNat front.length + 1 = base + UInt64.ofNat (front ++ [b]).length := by
      rw [List.length_append, UInt64.ofNat_add, ← UInt64.add_assoc]
      rfl
    have hrest := ih hsep (area_replace_self ..) (by simpa using fits) (by simpa using hlength)
    rw [storeBytes?, hstore, hnext]
    simpa using hrest

/-! Words in a region. -/

theorem toNat_ofUInt64 (w : UInt64) : UInt64.ofNat (Bytes.toNat (Bytes.ofUInt64 w)) = w := by
  have hlt : w.toNat < 256 ^ 8 := w.toNat_lt
  rw [Bytes.ofUInt64, Bytes.toNat_ofNat, Nat.mod_eq_of_lt hlt, UInt64.ofNat_toNat]

theorem loadWord?_area {w : UInt64} (sep : m.Separate)
    (hk : m.area k = ⟨base, (front ++ Bytes.ofUInt64 w ++ back).toArray⟩)
    (fits : (front ++ Bytes.ofUInt64 w ++ back).length ≤ UInt64.size) :
    m.loadWord? (base + UInt64.ofNat front.length) = some w := by
  have h := loadBytes?_area sep hk fits
  rw [Bytes.length_ofUInt64] at h
  rw [loadWord?, h, Option.map_some, toNat_ofUInt64]

theorem storeWord?_area {w : UInt64} (sep : m.Separate)
    (hk : m.area k = ⟨base, (front ++ old ++ back).toArray⟩)
    (fits : (front ++ old ++ back).length ≤ UInt64.size) (hlength : old.length = 8) :
    m.storeWord? (base + UInt64.ofNat front.length) w =
      some (m.replace k ⟨base, (front ++ Bytes.ofUInt64 w ++ back).toArray⟩) :=
  storeBytes?_area sep hk fits (by rw [Bytes.length_ofUInt64, hlength])

end Memory

end TapeLang.X86
