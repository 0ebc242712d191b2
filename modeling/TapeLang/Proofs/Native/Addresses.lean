import TapeLang.Proofs.Native.Layout
import TapeLang.Proofs.Assembly.Branches
import Mathlib.Data.List.Chain

/-!
# Where generated code is

Whatever the hooks of an environment emit, the reported addresses are where the fragments start, every
loop end leads to its target's address, and every refused move to a stub of its own. A hook knows only
the labels it is given and those it makes itself, so none of them can bind the label of an address or
a stub behind the place where code generation does.
-/

namespace TapeLang.Native

open X86 Assembly

/-! Which labels hooks bind. -/

theorem mem_boundLabels {items : List (Item Label)} {l : Label} :
    l ∈ boundLabels items ↔ .bind l ∈ items := by
  simp only [boundLabels, List.mem_filterMap]
  constructor
  · rintro ⟨item, hitem, hl⟩
    cases item <;> simp_all
  · intro h
    exact ⟨.bind l, h, rfl⟩

theorem boundLabels_of_mapLabel? {scope : Scope} {i : Item String} {item : Item Label} {l : Label}
    (h : i.mapLabel? (scope.lookup ·) = some item) (hl : l ∈ boundLabels [item]) :
    l ∈ scope.map Prod.snd := by
  cases i with
  | bind name =>
    obtain ⟨l', hlookup, rfl⟩ := Option.map_eq_some_iff.mp h
    obtain rfl := List.mem_singleton.mp hl
    obtain ⟨front, back, rfl, -⟩ := List.lookup_eq_some_iff.mp hlookup
    simp
  | plain i =>
    obtain rfl := Option.some.inj h
    cases hl
  | tapeAddress dst =>
    obtain rfl := Option.some.inj h
    cases hl
  | jump name =>
    obtain ⟨l', -, rfl⟩ := Option.map_eq_some_iff.mp h
    cases hl
  | branch c name =>
    obtain ⟨l', -, rfl⟩ := Option.map_eq_some_iff.mp h
    cases hl

/-- A listing binds only labels it knows and new ones. -/
theorem boundLabels_of_expand {scope : Scope} {next behind : Nat} {lines : List Line}
    {items : List (Item Label)} (h : Listing.expand scope next lines = .ok (items, behind)) :
    next ≤ behind ∧
      ∀ l : Nat, l ∈ boundLabels items → l ∈ scope.map Prod.snd ∨ next ≤ l ∧ l < behind := by
  induction lines generalizing scope next items with
  | nil =>
    obtain ⟨rfl, rfl⟩ := Prod.mk.inj (Except.ok.inj h)
    exact ⟨Nat.le_refl _, fun l hl => by cases hl⟩
  | cons line rest ih =>
    cases line with
    | label name =>
      obtain ⟨hle, hrest⟩ := ih h
      refine ⟨by omega, fun l hl => ?_⟩
      rcases hrest l hl with hl | hl
      · rcases List.mem_cons.mp hl with rfl | hl
        · exact .inr ⟨Nat.le_refl _, by omega⟩
        · exact .inl hl
      · exact .inr (by omega)
    | item i =>
      obtain ⟨item, more, hitem, -, hexpand, rfl⟩ := Listing.expand_item_eq_ok h
      obtain ⟨hle, hrest⟩ := ih hexpand
      refine ⟨hle, fun l hl => ?_⟩
      rw [← List.singleton_append, boundLabels_append, List.mem_append] at hl
      rcases hl with hl | hl
      · exact .inl (boundLabels_of_mapLabel? hitem hl)
      · exact hrest l hl

theorem boundLabels_expansion (scope : Scope) (next : Nat) (lines : List Line) :
    next ≤ (expansion scope next lines).2 ∧
      ∀ l : Nat, l ∈ boundLabels (expansion scope next lines).1 →
        l ∈ scope.map Prod.snd ∨ next ≤ l ∧ l < (expansion scope next lines).2 := by
  unfold expansion
  cases h : Listing.expand scope next lines with
  | error b => exact ⟨Nat.le_refl _, fun l hl => by cases hl⟩
  | ok r => exact boundLabels_of_expand h

namespace Frame

variable {f : Frame} {is : List Instruction}

theorem loopFragment_eq_ok {s : Site} {target : Nat} {c : Cond} {r : List (Item Label) × Nat} :
    loopFragment f s c target = .ok r ↔
      target ≤ f.size ∧ r = (loopItems c (f.address target), s.next) := by
  unfold loopFragment
  split <;> simp [*, eq_comm]

/-- A fragment binds only labels of its own and the exit for failures. -/
theorem boundLabels_of_fragment {s : Site} {free : Nat} {instr : Instruction}
    {items : List (Item Label)} (h : fragment f s instr = .ok (items, free)) :
    s.next ≤ free ∧ ∀ l : Nat, l ∈ boundLabels items → l = f.io ∨ s.next ≤ l ∧ l < free := by
  cases instr with
  | move d =>
    obtain ⟨rfl, rfl⟩ := Prod.mk.inj (Except.ok.inj h)
    simp [(labels_moveItems d s.next).1]
  | add d =>
    obtain ⟨rfl, rfl⟩ := Prod.mk.inj (Except.ok.inj h)
    simp [(labels_addItems d).1]
  | input =>
    obtain ⟨⟨read, free'⟩, hread, hitems⟩ := Except.bind_eq_ok.mp h
    obtain ⟨rfl, rfl⟩ := Prod.mk.inj (Except.ok.inj hitems)
    obtain ⟨hle, hbound⟩ := boundLabels_of_expand (Refusal.ofBreach_eq_ok.mp hread)
    refine ⟨Nat.le_trans (Nat.le_add_right s.next 3) hle, fun l hl => ?_⟩
    rw [(labels_inputItems ..).1, List.mem_append] at hl
    rcases hl with hl | hl
    · have hread := hbound l hl
      grind
    · grind
  | output =>
    obtain ⟨hle, hbound⟩ := boundLabels_of_expand (Refusal.ofBreach_eq_ok.mp h)
    exact ⟨hle, fun l hl => by simpa using hbound l hl⟩
  | loopOpen target =>
    obtain ⟨rfl, rfl⟩ := Prod.mk.inj (loopFragment_eq_ok.mp h).2
    simp [loopItems, boundLabels]
  | loopClose target =>
    obtain ⟨rfl, rfl⟩ := Prod.mk.inj (loopFragment_eq_ok.mp h).2
    simp [loopItems, boundLabels]

private theorem boundLabels_piece (f : Frame) (p : Placed) :
    p.site.next ≤ (f.piece p).2 ∧
      ∀ l : Nat, l ∈ boundLabels (f.piece p).1 → l = f.io ∨ p.site.next ≤ l ∧ l < (f.piece p).2 := by
  unfold piece
  cases h : fragment f p.site p.instr with
  | error e => exact ⟨Nat.le_refl _, fun l hl => by cases hl⟩
  | ok r => exact boundLabels_of_fragment h

private theorem le_behind (f : Frame) (s : Site) (is : List Instruction) :
    s.next ≤ (f.behind s is).next := by
  induction is generalizing s with
  | nil => exact Nat.le_refl s.next
  | cons i rest ih => exact Nat.le_trans (boundLabels_piece f ⟨s, i⟩).1 (ih (f.following ⟨s, i⟩))

/-- The labels of fragments follow each other. -/
theorem next_of_mem_placed {p : Placed} {s : Site} (h : p ∈ f.placed s is) :
    s.next ≤ p.site.next ∧ (f.piece p).2 ≤ (f.behind s is).next := by
  induction is generalizing s with
  | nil => cases h
  | cons i rest ih =>
    have hpiece : s.next ≤ (f.piece ⟨s, i⟩).2 := (boundLabels_piece f ⟨s, i⟩).1
    rcases List.mem_cons.mp h with rfl | h
    · exact ⟨Nat.le_refl _, le_behind f (f.following ⟨s, i⟩) rest⟩
    · obtain ⟨hnext, hbehind⟩ := ih h
      exact ⟨Nat.le_trans hpiece hnext, hbehind⟩

private theorem index_of_mem_drop_placed {p : Placed} {k : Nat} (h : p ∈ (f.placed f.start is).drop k) :
    k ≤ p.site.index ∧ p.site.index < is.length := by
  obtain ⟨j, hj⟩ := List.mem_iff_getElem?.mp h
  rw [List.getElem?_drop] at hj
  have hlt : k + j < is.length := by
    rw [← length_placed f f.start is]
    exact (List.getElem?_eq_some_iff.mp hj).1
  obtain ⟨s, hindex, hplaced, -⟩ := exists_placed (f := f) (List.getElem?_eq_getElem hlt)
  obtain rfl := Option.some.inj (hplaced.symm.trans hj)
  rw [hindex]
  exact ⟨Nat.le_add_right k j, hlt⟩

/-- Fragments bind the addresses in front of them, the exit for failures, and labels of their own. -/
theorem boundLabels_fragments {k l : Nat}
    (h : l ∈ boundLabels (f.fragments ((f.placed f.start is).drop k))) :
    (∃ k', k ≤ k' ∧ k' < is.length ∧ l = f.address k') ∨ l = f.io ∨ f.free ≤ l := by
  obtain ⟨p, hp, hl⟩ := List.mem_flatMap.mp (mem_boundLabels.mp h)
  rcases List.mem_cons.mp hl with hl | hl
  · obtain ⟨hk, hlt⟩ := index_of_mem_drop_placed hp
    exact .inl ⟨p.site.index, hk, hlt, Item.bind.inj hl⟩
  · rcases (boundLabels_piece f p).2 l (mem_boundLabels.mpr hl) with rfl | ⟨hnext, -⟩
    · exact .inr (.inl rfl)
    · exact .inr (.inr (Nat.le_trans (next_of_mem_placed (List.mem_of_mem_drop hp)).1 hnext))

/-- The label of a stub is one of its fragment's. -/
theorem stub_bounds {x : Nat × Nat} {s : Site} (h : x ∈ (f.placed s is).filterMap stub?) :
    s.next ≤ x.1 ∧ x.1 < (f.behind s is).next := by
  obtain ⟨⟨s', instr⟩, hp, hx⟩ := List.mem_filterMap.mp h
  obtain ⟨hnext, hbehind⟩ := next_of_mem_placed hp
  cases instr with
  | move d =>
    obtain rfl := Option.some.inj hx
    rw [piece_move] at hbehind
    exact ⟨hnext, hbehind⟩
  | _ => cases hx

private theorem stubs_pairwise (f : Frame) (s : Site) (is : List Instruction) :
    ((f.placed s is).filterMap stub?).Pairwise fun x x' => x.1 < x'.1 := by
  induction is generalizing s with
  | nil => exact .nil
  | cons i rest ih =>
    rw [placed, List.filterMap_cons]
    cases i with
    | move d => exact List.pairwise_cons.mpr ⟨fun x hx => (stub_bounds hx).1, ih _⟩
    | _ => exact ih _

theorem boundLabels_stubCode (f : Frame) (s : Site) (stubs : List (Nat × Nat)) :
    s.next ≤ (f.stubCode s stubs).2.next ∧
      ∀ l : Nat, l ∈ boundLabels (f.stubCode s stubs).1 → l ∈ stubs.map Prod.fst ∨ s.next ≤ l := by
  induction stubs generalizing s with
  | nil => exact ⟨Nat.le_refl s.next, fun l hl => by cases hl⟩
  | cons stub rest ih =>
    obtain ⟨k, index⟩ := stub
    obtain ⟨hle, hrecord⟩ := boundLabels_expansion [] s.next
      (f.environment.recordFault { s with index })
    obtain ⟨hle', hrest⟩ := ih (s.past (.bind k :: ((f.record { s with index }).1 ++
      [.jump f.bounds])) (f.record { s with index }).2)
    refine ⟨Nat.le_trans hle hle', fun l hl => ?_⟩
    simp only [stubCode, mem_boundLabels, List.mem_cons, List.mem_append, Item.bind.injEq] at hl
    rcases hl with rfl | hl | hl | hl
    · exact .inl List.mem_cons_self
    · rcases hrecord l (mem_boundLabels.mpr hl) with h | h
      · cases h
      · exact .inr h.1
    · cases hl
    · rcases hrest l (mem_boundLabels.mpr hl) with h | h
      · exact .inl (List.mem_cons_of_mem _ h)
      · exact .inr (Nat.le_trans hle h)

/-! Where the labels of a whole program are bound last. -/

/-- The items of all stubs. -/
def stubItems (f : Frame) (is : List Instruction) : List (Item Label) :=
  (f.stubCode (f.atStubs (f.behind f.start is)) (f.stubs is)).1

def epilogueItems (f : Frame) (is : List Instruction) : List (Item Label) :=
  (f.leaving (f.atEpilogue is)).1

private theorem tail_last (hsize : is.length = f.size) : f.tail is f.size =
    .bind (f.address f.size) :: .jump f.ok :: (f.stubItems is ++ f.epilogueItems is) := by
  rw [← hsize, tail_length, hsize]
  rfl

private theorem boundLabels_stubItems {l : Nat} (h : l ∈ boundLabels (f.stubItems is)) : f.free ≤ l := by
  rcases (boundLabels_stubCode f _ _).2 l h with h | h
  · obtain ⟨x, hx, rfl⟩ := List.mem_map.mp h
    exact (stub_bounds hx).1
  · exact Nat.le_trans (le_behind f f.start is) h

private theorem behind_le_epilogue (f : Frame) (is : List Instruction) :
    (f.behind f.start is).next ≤ (f.atEpilogue is).next :=
  (boundLabels_stubCode f (f.atStubs (f.behind f.start is)) (f.stubs is)).1

private theorem boundLabels_epilogueItems {l : Nat} (h : l ∈ boundLabels (f.epilogueItems is)) :
    l ∈ [f.ok, f.bounds, f.io] ∨ (f.behind f.start is).next ≤ l := by
  rcases (boundLabels_expansion _ _ _).2 l h with h | h
  · exact .inl h
  · exact .inr (Nat.le_trans (behind_le_epilogue f is) h.1)

private theorem behind_le_labels (f : Frame) (is : List Instruction) :
    (f.behind f.start is).next ≤ f.labels is :=
  Nat.le_trans (behind_le_epilogue f is) (boundLabels_expansion _ _ _).1

/-- Every other label of the frame lies behind those of addresses. -/
theorem address_lt {k : Nat} (hk : k ≤ f.size) (l : Nat)
    (h : l ∈ [f.ok, f.bounds, f.io] ∨ f.free ≤ l) : f.address k < l := by
  simp only [List.mem_cons, List.not_mem_nil, or_false, ok, bounds, io, free] at h
  simp only [address]
  grind

/-- The label of an address is bound in front of its fragment and not again. -/
theorem address_last {k : Nat} (hsize : is.length = f.size) (hk : k ≤ f.size) :
    ∃ back, f.tail is k = .bind (f.address k) :: back ∧ f.address k ∉ boundLabels back := by
  have hother : ¬ (f.address k ∈ [f.ok, f.bounds, f.io] ∨ f.free ≤ f.address k) :=
    fun h => Nat.lt_irrefl _ (address_lt hk _ h)
  have hending : f.address k ∉ boundLabels (f.stubItems is ++ f.epilogueItems is) := by
    rw [boundLabels_append, List.mem_append]
    rintro (h | h)
    · exact hother (.inr (boundLabels_stubItems h))
    · exact hother ((boundLabels_epilogueItems h).imp_right (Nat.le_trans (le_behind f f.start is)))
  rcases Nat.lt_or_eq_of_le hk with hlt | rfl
  · obtain ⟨s, -, hplaced, htail⟩ :=
      exists_placed (f := f) (List.getElem?_eq_getElem (hsize ▸ hlt))
    refine ⟨_, htail, ?_⟩
    have hnext : f.free ≤ s.next := (next_of_mem_placed (List.mem_of_getElem? hplaced)).1
    rw [boundLabels_append, List.mem_append]
    rintro (h | h)
    · rcases (boundLabels_piece f _).2 _ h with h | h
      · exact hother (.inl (by simp [h]))
      · exact hother (.inr (Nat.le_trans hnext h.1))
    · rw [tail, boundLabels_append, List.mem_append] at h
      rcases h with h | h
      · rcases boundLabels_fragments h with ⟨k', hle, -, heq⟩ | h | h
        · exact Nat.ne_of_lt hle (Nat.add_left_cancel heq)
        · exact hother (.inl (by simp [h]))
        · exact hother (.inr h)
      · rcases List.mem_cons.mp h with h | h
        · exact Nat.ne_of_lt hlt (Nat.add_left_cancel h)
        · exact hending h
  · exact ⟨_, tail_last hsize, hending⟩

/-- Only the epilogue binds the exits for success and for refused moves. -/
theorem boundLabels_exit {l : Label} (hl : l = f.ok ∨ l = f.bounds) (hsize : is.length = f.size)
    (hfirst : f.first = (expansion [] 0 f.environment.prologue).2)
    (h : l ∈ boundLabels (f.layout is)) : l ∈ boundLabels (f.epilogueItems is) := by
  have hexit : l ∈ [f.ok, f.bounds, f.io] := by rcases hl with rfl | rfl <;> simp
  have hio : l ≠ f.io := by
    rcases hl with rfl | rfl <;> exact Nat.ne_of_lt (by simp [ok, bounds, io])
  have hfree : ¬ f.free ≤ l := by
    rcases hl with rfl | rfl <;> exact Nat.not_le_of_lt (by simp [ok, bounds, free])
  have haddress : ∀ k ≤ f.size, l ≠ f.address k :=
    fun k hk => Nat.ne_of_gt (address_lt hk l (.inl hexit))
  rw [layout, tail, ending, boundLabels_append, boundLabels_append, boundLabels_bind] at h
  simp only [List.mem_append, List.mem_cons] at h
  rcases h with h | h | h | h
  · rcases (boundLabels_expansion _ _ _).2 l h with h | h
    · cases h
    · rw [← hfirst] at h
      exact absurd (address_lt (Nat.zero_le f.size) l (.inl hexit)) (Nat.not_lt_of_lt h.2)
  · rcases boundLabels_fragments h with ⟨k, -, hk, heq⟩ | h | h
    · exact absurd heq (haddress k (Nat.le_of_lt (hsize ▸ hk)))
    · exact absurd h hio
    · exact absurd h hfree
  · exact absurd h (haddress f.size (Nat.le_refl _))
  · have hrest : l ∈ boundLabels (f.stubItems is ++ f.epilogueItems is) := h
    rw [boundLabels_append, List.mem_append] at hrest
    exact hrest.resolve_left fun h => hfree (boundLabels_stubItems h)

/-- A stub binds its label last, notes its index and leaves. -/
theorem stubCode_last {l index : Nat} {s : Site} {stubs : List (Nat × Nat)} (h : (l, index) ∈ stubs)
    (hrecorded : f.Recorded s stubs) (hpairwise : stubs.Pairwise fun x x' => x.1 < x'.1)
    (hlt : ∀ x ∈ stubs, x.1 < s.next) :
    ∃ front s' back, s'.index = index ∧
      Listing.expand [] s'.next (f.environment.recordFault s') = .ok (f.record s') ∧
      (f.stubCode s stubs).1 = front ++ .bind l :: ((f.record s').1 ++ .jump f.bounds :: back) ∧
      s'.offset = s.offset + sizes front ∧
      l ∉ boundLabels ((f.record s').1 ++ .jump f.bounds :: back) := by
  induction stubs generalizing s with
  | nil => cases h
  | cons stub rest ih =>
    obtain ⟨k, at'⟩ := stub
    obtain ⟨hrecord, hrest⟩ := hrecorded
    obtain ⟨hfirst, hpairwise⟩ := List.pairwise_cons.mp hpairwise
    obtain ⟨hle, hbound⟩ := boundLabels_expansion [] s.next
      (f.environment.recordFault { s with index := at' })
    rcases List.mem_cons.mp h with h | h
    · obtain ⟨rfl, rfl⟩ := Prod.mk.inj h
      refine ⟨[], { s with index }, _, rfl, hrecord, rfl, rfl, ?_⟩
      have hown : l < s.next := hlt _ List.mem_cons_self
      rw [boundLabels_append, List.mem_append]
      rintro (h | h)
      · rcases hbound l h with h | h
        · cases h
        · exact absurd h.1 (Nat.not_le_of_lt hown)
      · rcases (boundLabels_stubCode f _ rest).2 l h with h | h
        · obtain ⟨x, hx, rfl⟩ := List.mem_map.mp h
          exact Nat.lt_irrefl _ (hfirst x hx)
        · exact absurd (Nat.le_trans hle h) (Nat.not_le_of_lt hown)
    · obtain ⟨front, s', back, hindex, hexpand, hcode, hoffset, hlast⟩ := ih h hrest hpairwise
        fun x hx => Nat.lt_of_lt_of_le (hlt x (List.mem_cons_of_mem _ hx)) hle
      refine ⟨.bind k :: ((f.record { s with index := at' }).1 ++ .jump f.bounds :: front), s', back,
        hindex, hexpand, by simp [stubCode, hcode], ?_, hlast⟩
      simp [hoffset, Site.past, Nat.add_assoc]

/-! The offset of a site is the size of the code in front of it. -/

theorem offset_behind (f : Frame) (s : Site) (is : List Instruction) :
    (f.behind s is).offset = s.offset + sizes (f.fragments (f.placed s is)) := by
  induction is generalizing s with
  | nil => rfl
  | cons i rest ih => simp [behind, placed, fragments, ih, following, Site.past, Nat.add_assoc]

private theorem offset_placed {s : Site} {k : Nat} {p : Placed} (h : (f.placed s is)[k]? = some p) :
    (f.behind s is).offset = p.site.offset + sizes (f.fragments ((f.placed s is).drop k)) := by
  induction is generalizing s k with
  | nil => cases h
  | cons i rest ih =>
    cases k with
    | zero =>
      obtain rfl := Option.some.inj h
      exact offset_behind f s (i :: rest)
    | succ k => exact ih h

private theorem sizes_layout (f : Frame) (is : List Instruction) : sizes (f.layout is) =
    (f.behind f.start is).offset + sizes (f.ending (f.behind f.start is) (f.stubs is)) := by
  rw [offset_behind]
  simp [layout, tail, start, Nat.add_assoc]

private theorem offset_of_placed {index : Nat} {p : Placed} {front : List (Item Label)}
    (h : (f.placed f.start is)[index]? = some p) (hfront : f.layout is = front ++ f.tail is index) :
    p.site.offset = sizes front := by
  have hsizes := sizes_layout f is
  rw [hfront, offset_placed h, tail, sizes_append, sizes_append] at hsizes
  omega

private theorem offset_stubCode (f : Frame) (s : Site) (stubs : List (Nat × Nat)) :
    (f.stubCode s stubs).2.offset = s.offset + sizes (f.stubCode s stubs).1 := by
  induction stubs generalizing s with
  | nil => rfl
  | cons stub rest ih => simp [stubCode, ih, Site.past, Nat.add_assoc]

/-! Drafting succeeds only with all fragments and hooks. -/

theorem expand_eq_expansion {scope : Scope} {next : Nat} {lines : List Line}
    {r : List (Item Label) × Nat} {ε : Type}
    (h : (Refusal.ofBreach (Listing.expand scope next lines) : Except (Refusal ε) _) = .ok r) :
    Listing.expand scope next lines = .ok (expansion scope next lines) := by
  have hr := Refusal.ofBreach_eq_ok.mp h
  rw [expansion_of_expand hr]
  exact hr

theorem framed_of_foldlM {d d' : Draft} {index : Nat} {s : Site} (hs : d.site index = s)
    (h : (is.zipIdx index).foldlM
      (fun (d : Draft) (x : Instruction × Nat) => d.addInstruction f x.1 x.2) d = .ok d') :
    f.Framed (f.placed s is) := by
  induction is generalizing d index s with
  | nil => simp [Framed, placed]
  | cons i rest ih =>
    rw [List.zipIdx_cons, List.foldlM_cons] at h
    obtain ⟨d₁, hadd, hrest⟩ := Except.bind_eq_ok.mp h
    obtain ⟨r, hr, -⟩ := Except.bind_eq_ok.mp hadd
    have hpiece : fragment f s i = .ok (f.piece ⟨s, i⟩) := by
      rw [hs] at hr
      rw [piece_of_ok hr]
      exact hr
    obtain ⟨d₂, hadd', hsite, -⟩ := addInstruction_of_fragment hs hpiece
    obtain rfl := Except.ok.inj (hadd'.symm.trans hadd)
    intro p hp
    rcases List.mem_cons.mp hp with rfl | hp
    · exact hpiece
    · exact ih hsite hrest p hp

private theorem recorded_of_foldlM {d d' : Draft} {index : Nat} {s : Site} {stubs : List (Nat × Nat)}
    (hs : d.site index = s) (h : stubs.foldlM (Draft.addStub f) d = .ok d') : f.Recorded s stubs := by
  induction stubs generalizing d s with
  | nil => trivial
  | cons stub rest ih =>
    subst hs
    rw [List.foldlM_cons] at h
    obtain ⟨d₁, hadd, hrest⟩ := Except.bind_eq_ok.mp h
    obtain ⟨r, hr, hd₁⟩ := Except.bind_eq_ok.mp hadd
    have hexpand := expand_eq_expansion hr
    obtain rfl : r = f.record (d.site stub.2) :=
      Except.ok.inj ((Refusal.ofBreach_eq_ok.mp hr).symm.trans hexpand)
    obtain rfl := Except.ok.inj hd₁
    exact ⟨hexpand, ih (site_append ..) hrest⟩

end Frame

theorem drafted_of_draft {p : Program} {env : Environment} {policy : EndOfInput} {r : Frame × Draft}
    (h : draft p env policy = .ok r) :
    (Frame.of p env policy).Drafted p.instructions.toList := by
  obtain ⟨⟨prologue, first⟩, hprologue, h⟩ := Except.bind_eq_ok.mp h
  have hexpand := Frame.expand_eq_expansion hprologue
  obtain ⟨rfl, rfl⟩ : prologue = (expansion [] 0 env.prologue).1 ∧
      first = (expansion [] 0 env.prologue).2 := by
    rw [expansion_of_expand (Refusal.ofBreach_eq_ok.mp hprologue)]
    exact ⟨rfl, rfl⟩
  obtain ⟨d, hbody, h⟩ := Except.bind_eq_ok.mp h
  obtain ⟨d', hstubs, h⟩ := Except.bind_eq_ok.mp h
  obtain ⟨d'', hepilogue, -⟩ := Except.bind_eq_ok.mp h
  have hstart : Draft.site ⟨(expansion [] 0 env.prologue).1.toArray,
      sizes (expansion [] 0 env.prologue).1, (Frame.of p env policy).free, #[]⟩ 0 =
        (Frame.of p env policy).start := rfl
  have hframed := Frame.framed_of_foldlM (f := .of p env policy) hstart hbody
  obtain ⟨d₁, hbody', hsite, -, hlist⟩ := Frame.foldlM_addInstruction hstart hframed
  obtain rfl := Except.ok.inj (hbody'.symm.trans hbody)
  have hlist' : d₁.stubs.toList = (Frame.of p env policy).stubs p.instructions.toList := by
    simpa [Frame.stubs] using hlist
  rw [hlist'] at hstubs
  have hend : (Draft.addEnd (.of p env policy) d₁).site (0 + p.instructions.toList.length) =
      (Frame.of p env policy).atStubs ((Frame.of p env policy).behind
        (Frame.of p env policy).start p.instructions.toList) := by
    rw [← hsite]
    rfl
  have hrecorded := Frame.recorded_of_foldlM (f := .of p env policy) hend hstubs
  obtain ⟨d₂, hstubs', hsite', -⟩ := Frame.foldlM_addStub hend hrecorded
  obtain rfl := Except.ok.inj (hstubs'.symm.trans hstubs)
  obtain ⟨r', hr', -⟩ := Except.bind_eq_ok.mp hepilogue
  have hlast := Frame.expand_eq_expansion hr'
  refine ⟨hexpand, hframed, hrecorded, ?_⟩
  rw [Frame.leaving, Frame.atEpilogue, ← hsite']
  exact hlast

/-! What the code of a program looks like. -/

/-- The bytes from one offset up to another. -/
def MachineCode.between (code : MachineCode) (start stop : Nat) : Bytes :=
  (code.bytes.drop start).take (stop - start)

/-- At an offset, the code jumps to another. -/
def MachineCode.JumpsAt (code : MachineCode) (start target : Nat) : Prop :=
  ∃ rel, code.between start (start + 5) = (Instr.jmp rel).encode ∧
    (start + 5 : Nat) + rel.toInt = target

/-- Between two offsets is the code of the items, with labels where the whole draft binds them. -/
def Draft.Codes (d : Draft) (code : MachineCode) (start stop : Nat) (items : List (Item Label)) :
    Prop :=
  codeBytes (bindings d.next d.items.toList) 0 start items = .ok (code.between start stop)

/-- The items of an instruction that needs no hook. Its bytes do not depend on the label. -/
def shape? : Instruction → Option (List (Item Label))
  | .move delta => some (moveItems delta 0)
  | .add delta => some (addItems delta)
  | .loopOpen _ => some (loopItems .equal 0)
  | .loopClose _ => some (loopItems .notEqual 0)
  | .input | .output => none

/-- Items that start at an offset have one field, from which a displacement leads to a target. -/
def BranchesTo (start : Nat) (items : List (Item Label)) (rel : Int32) (target : Nat) : Prop :=
  ∃ b, fixupsFrom start items = [b] ∧ (b.offset + 4 : Nat) + rel.toInt = target

namespace Frame

/-- An exit is where the epilogue binds its label last. -/
def ExitAt (f : Frame) (d : Draft) (l : Label) (target : Nat) : Prop :=
  ∃ front epilogue next free offset, d.items.toList = front ++ epilogue ∧
    Listing.expand f.exits next (f.environment.epilogue ⟨f.size, sizes front, next⟩) =
      .ok (epilogue, free) ∧
    LastBound epilogue l offset ∧ target = sizes front + offset

/-- A stub notes the index of its move and leaves by the exit for refused moves. -/
def StubAt (f : Frame) (d : Draft) (code : MachineCode) (index start : Nat) : Prop :=
  ∃ next record free stop exit,
    Listing.expand [] next (f.environment.recordFault ⟨index, start, next⟩) = .ok (record, free) ∧
    stop = start + sizes record ∧ d.Codes code start stop record ∧ code.JumpsAt stop exit ∧
    f.ExitAt d f.bounds exit

/-- The branch of a loop end leads to the address of its target, that of a move to its stub. -/
def Branches (f : Frame) (d : Draft) (code : MachineCode) (index start : Nat)
    (items : List (Item Label)) (rel : Int32) : Instruction → Prop
  | .move delta => delta ≠ 0 → ∃ stub, f.StubAt d code index stub ∧ BranchesTo start items rel stub
  | .loopOpen target | .loopClose target =>
    ∃ there, code.addresses[target]? = some there ∧ BranchesTo start items rel there
  | _ => True

/-- The code of instructions is the prologue, a fragment from each address to the next, and a jump to the
exit for success. Without a hook in it, only the displacement in a fragment depends on the environment. -/
structure Arranged (f : Frame) (is : List Instruction) (d : Draft) (code : MachineCode) : Prop where
  length_addresses : code.addresses.length = is.length + 1
  ascending : code.addresses.Pairwise (· ≤ ·)
  prologue : ∃ items, Listing.expand [] 0 f.environment.prologue = .ok (items, f.first) ∧
    d.Codes code 0 (sizes items) items ∧ code.addresses[0]? = some (sizes items)
  fragments : ∀ index instr start stop, is[index]? = some instr →
    code.addresses[index]? = some start → code.addresses[index + 1]? = some stop →
    ∃ next items free, fragment f ⟨index, start, next⟩ instr = .ok (items, free) ∧
      d.Codes code start stop items
  branches : ∀ index instr start stop items, is[index]? = some instr →
    code.addresses[index]? = some start → code.addresses[index + 1]? = some stop →
    shape? instr = some items →
    ∃ rel, code.between start stop = filled rel items ∧ f.Branches d code index start items rel instr
  ending : ∃ start exit, code.addresses[is.length]? = some start ∧ code.JumpsAt start exit ∧
    f.ExitAt d f.ok exit

/-! The branch of an instruction, whatever its label. -/

theorem fixupsFrom_moveItems {delta : Int8} (h : delta ≠ 0) (start : Nat) :
    ∃ k, ∀ l, fixupsFrom start (moveItems delta l) = [⟨k, l⟩] := by
  unfold moveItems
  split
  next => exact ⟨_, fun l => rfl⟩
  next =>
    split
    next => exact ⟨_, fun l => rfl⟩
    next hpositive hnegative =>
      exact absurd (Int8.toInt_inj.mp (by simpa using by omega)) h

private theorem filled_moveItems (delta : Int8) (rel : Int32) (l : Label) :
    filled rel (moveItems delta l) = filled rel (moveItems delta 0) := by
  unfold moveItems
  split
  next => rfl
  next => split <;> rfl

private theorem fixupsFrom_addItems (delta : Int8) (start : Nat) :
    fixupsFrom start (addItems delta) = [] := by
  unfold addItems
  split <;> rfl

/-- The code of instructions is their layout, assembled. -/
structure Generated (f : Frame) (is : List Instruction) (d : Draft) (code : MachineCode) : Prop where
  size : is.length = f.size
  first : f.first = (expansion [] 0 f.environment.prologue).2
  drafted : f.Drafted is
  items : d.items.toList = f.layout is
  next : d.next = f.labels is
  bytes : codeBytes (bindings d.next d.items.toList) 0 0 d.items.toList = .ok code.bytes
  labels : ∃ offsets, labelOffsets (bindings d.next d.items.toList) = .ok offsets ∧
    code.addresses = (offsets.drop f.first).take (f.size + 1)

namespace Generated

variable {f : Frame} {is : List Instruction} {d : Draft} {code : MachineCode}
  {front items back : List (Item Label)} {l : Label} {target : Nat}

private theorem free_le_next (h : f.Generated is d code) : f.free ≤ d.next := by
  rw [h.next]
  exact Nat.le_trans (le_behind f f.start is) (behind_le_labels f is)

theorem codes (h : f.Generated is d code) (hitems : f.layout is = front ++ (items ++ back)) :
    d.Codes code (sizes front) (sizes front + sizes items) items := by
  have hbytes : codeBytes (bindings d.next d.items.toList) 0 0 (front ++ (items ++ back)) =
      .ok code.bytes := by
    rw [← hitems, ← h.items]
    exact h.bytes
  rw [Draft.Codes, MachineCode.between, Nat.add_sub_cancel_left]
  exact codeBytes_middle hbytes

/-- Items with one field have the displacement to the last binding of its label in it. -/
theorem branchesTo (h : f.Generated is d code) {start stop k : Nat}
    (items : Label → List (Item Label)) (hcodes : d.Codes code start stop (items l)) (hl : l < d.next)
    (ht : LastBound (f.layout is) l target)
    (hfields : ∀ l, fixupsFrom start (items l) = [⟨k, l⟩])
    (hfilled : ∀ rel, filled rel (items l) = filled rel (items 0)) :
    ∃ rel, code.between start stop = filled rel (items 0) ∧
      BranchesTo start (items 0) rel target := by
  have hmem : ⟨k, l⟩ ∈ fixupsFrom start (items l) := by simp [hfields]
  obtain ⟨rel, hrel, -⟩ := codeBytes_field hcodes hmem
  have hbytes : code.between start stop = filled rel (items l) := by
    refine codeBytes_filled hcodes fun b hb => ?_
    rw [hfields, List.mem_singleton] at hb
    rw [hb]
    exact hrel
  obtain ⟨target', ht', -, hlands⟩ := (displacementTo_eq_ok_iff hl).mp hrel
  rw [h.items] at ht'
  obtain rfl := ht.unique ht'
  exact ⟨rel, hbytes.trans (hfilled rel), _, hfields 0, hlands⟩

private theorem jumpsAt (h : f.Generated is d code) (hitems : f.layout is = front ++ .jump l :: back)
    (hl : l < d.next) (ht : LastBound (f.layout is) l target) : code.JumpsAt (sizes front) target := by
  have hcodes : d.Codes code (sizes front) (sizes front + 5) [.jump l] := h.codes hitems
  obtain ⟨rel, hbytes, b, hfield, hlands⟩ :=
    h.branchesTo (fun l => [.jump l]) hcodes hl ht (fun _ => rfl) (fun _ => rfl)
  obtain rfl : b = ⟨sizes front + 1, 0⟩ := by simpa [fixupsFrom, Item.fixup?, eq_comm] using hfield
  exact ⟨rel, by simpa [filled, Item.filled] using hbytes, hlands⟩

private theorem lastBound_address (h : f.Generated is d code) {k : Nat} (hk : k ≤ f.size)
    (hfront : f.layout is = front ++ f.tail is k) :
    LastBound (f.layout is) (f.address k) (sizes front) := by
  obtain ⟨back, htail, hlast⟩ := address_last h.size hk
  exact ⟨front, back, htail ▸ hfront, hlast, rfl⟩

private theorem address_lt_next (h : f.Generated is d code) {k : Nat} (hk : k ≤ f.size) :
    f.address k < d.next :=
  Nat.lt_of_lt_of_le (address_lt hk f.free (.inr (Nat.le_refl _))) h.free_le_next

/-- The address of an index is where its code starts. -/
theorem getElem?_addresses (h : f.Generated is d code) {k : Nat} (hk : k ≤ f.size)
    (hfront : f.layout is = front ++ f.tail is k) : code.addresses[k]? = some (sizes front) := by
  obtain ⟨offsets, hoffsets, haddresses⟩ := h.labels
  obtain ⟨target, ht, hget⟩ :=
    (lastBound_of_labelOffsets hoffsets).2 (f.address k) (h.address_lt_next hk)
  rw [h.items] at ht
  rw [haddresses, List.getElem?_take_of_lt (Nat.lt_succ_of_le hk), List.getElem?_drop,
    (h.lastBound_address hk hfront).unique ht]
  exact hget

private theorem length_addresses (h : f.Generated is d code) :
    code.addresses.length = is.length + 1 := by
  obtain ⟨offsets, hoffsets, haddresses⟩ := h.labels
  have hlength := (lastBound_of_labelOffsets hoffsets).1
  have hfree : f.size + 1 ≤ d.next - f.first := by
    refine Nat.le_sub_of_add_le (Nat.le_trans ?_ h.free_le_next)
    simp only [free]
    grind
  rw [haddresses, h.size, List.length_take, List.length_drop, hlength, Nat.min_eq_left hfree]

/-- The fragment of an instruction lies between its address and the next one. -/
theorem exists_piece (h : f.Generated is d code) {index : Nat} {i : Instruction}
    (hi : is[index]? = some i) :
    ∃ s front, s.index = index ∧ s.offset = sizes front ∧
      (f.placed f.start is)[index]? = some ⟨s, i⟩ ∧
      f.layout is = front ++ ((f.piece ⟨s, i⟩).1 ++ f.tail is (index + 1)) ∧
      code.addresses[index]? = some (sizes front) ∧
      code.addresses[index + 1]? = some (sizes front + sizes (f.piece ⟨s, i⟩).1) := by
  have hlt : index < f.size := h.size ▸ (List.getElem?_eq_some_iff.mp hi).1
  obtain ⟨s, hindex, hplaced, htail⟩ := exists_placed (f := f) hi
  obtain ⟨front, hfront⟩ := layout_eq_append_tail f is index
  have hnext : f.layout is = front ++ .bind (f.address index) :: (f.piece ⟨s, i⟩).1 ++
      f.tail is (index + 1) := by
    rw [hfront, htail]
    simp
  have hoffset : s.offset = sizes front := offset_of_placed hplaced hfront
  refine ⟨s, front ++ [.bind (f.address index)], hindex, by simp [hoffset], hplaced,
    by simp [hnext], ?_, ?_⟩
  · simpa using h.getElem?_addresses (Nat.le_of_lt hlt) hfront
  · simpa using h.getElem?_addresses hlt hnext

private theorem ascending (h : f.Generated is d code) : code.addresses.Pairwise (· ≤ ·) := by
  rw [← List.isChain_iff_pairwise, List.isChain_iff_getElem]
  intro index hindex
  rw [h.length_addresses] at hindex
  obtain ⟨s, front, -, -, -, -, hstart, hstop⟩ :=
    h.exists_piece (List.getElem?_eq_getElem (Nat.lt_of_succ_lt_succ hindex))
  obtain ⟨_, hstart⟩ := List.getElem?_eq_some_iff.mp hstart
  obtain ⟨_, hstop⟩ := List.getElem?_eq_some_iff.mp hstop
  rw [hstart, hstop]
  exact Nat.le_add_right _ _

private theorem layout_last (h : f.Generated is d code) : ∃ front, f.layout is = front ++
    .jump f.ok :: (f.stubItems is ++ f.epilogueItems is) ∧
      code.addresses[is.length]? = some (sizes front) ∧
      (f.atStubs (f.behind f.start is)).offset = sizes (front ++ [.jump f.ok]) := by
  obtain ⟨front, hfront⟩ := layout_eq_append_tail f is f.size
  refine ⟨front ++ [.bind (f.address f.size)], by simp [hfront, tail_last h.size], ?_, ?_⟩
  · simpa [h.size] using h.getElem?_addresses (Nat.le_refl _) hfront
  · have hsizes := sizes_layout f is
    rw [hfront, ← h.size, tail_length, sizes_append] at hsizes
    simp only [atStubs, Site.past, sizes_append, sizes_cons, sizes_nil, size_bind]
    omega

/-- The exits for success and for refused moves are in the epilogue. -/
theorem exists_exit (h : f.Generated is d code) (hl : l = f.ok ∨ l = f.bounds) :
    l < d.next ∧ ∃ target, f.ExitAt d l target ∧ LastBound (f.layout is) l target := by
  have hlt : l < d.next := by
    refine Nat.lt_of_lt_of_le ?_ h.free_le_next
    rcases hl with rfl | rfl <;> simp [ok, bounds, free]
  obtain ⟨offsets, hoffsets, -⟩ := h.labels
  obtain ⟨_, ht, -⟩ := (lastBound_of_labelOffsets hoffsets).2 l hlt
  rw [h.items] at ht
  obtain ⟨offset, hoffset⟩ := exists_lastBound (boundLabels_exit hl h.size h.first ht.mem)
  obtain ⟨front, hfront, -, hstubs⟩ := h.layout_last
  have hitems : f.layout is = (front ++ .jump f.ok :: f.stubItems is) ++ f.epilogueItems is := by
    simp [hfront]
  have hsite : (f.atEpilogue is).offset = sizes (front ++ .jump f.ok :: f.stubItems is) := by
    rw [atEpilogue, offset_stubCode, hstubs]
    simp [stubItems, Nat.add_assoc]
  have hepilogue : Listing.expand f.exits (f.atEpilogue is).next (f.environment.epilogue
      ⟨f.size, sizes (front ++ .jump f.ok :: f.stubItems is), (f.atEpilogue is).next⟩) =
        .ok (f.leaving (f.atEpilogue is)) := by
    rw [← hsite]
    exact h.drafted.epilogue
  refine ⟨hlt, _, ⟨_, _, _, _, offset, h.items.trans hitems, hepilogue, hoffset, rfl⟩, ?_⟩
  rw [hitems]
  exact hoffset.append

theorem exists_stub (h : f.Generated is d code) {l index : Nat} (hstub : (l, index) ∈ f.stubs is) :
    l < d.next ∧ ∃ start, f.StubAt d code index start ∧ LastBound (f.layout is) l start := by
  obtain ⟨hfree, hbehind⟩ := stub_bounds hstub
  have hlt : l < d.next := Nat.lt_of_lt_of_le hbehind (h.next ▸ behind_le_labels f is)
  obtain ⟨before, s, back, hindex, hexpand, hstubs, hoffset, hlast⟩ := stubCode_last hstub
    h.drafted.stubs (stubs_pairwise f f.start is) fun x hx => (stub_bounds hx).2
  obtain ⟨front, hfront, -, hsite⟩ := h.layout_last
  have hitems : f.layout is = (front ++ .jump f.ok :: before) ++
      .bind l :: ((f.record s).1 ++ .jump f.bounds :: (back ++ f.epilogueItems is)) := by
    rw [hfront, show f.stubItems is = _ from hstubs]
    simp
  have hlast' :
      l ∉ boundLabels ((f.record s).1 ++ .jump f.bounds :: (back ++ f.epilogueItems is)) := by
    rw [← List.cons_append, ← List.append_assoc, boundLabels_append, List.mem_append]
    rintro (hl | hl)
    · exact hlast hl
    · rcases boundLabels_epilogueItems hl with hl | hl
      · have hexits : l < f.free := by
          simp only [List.mem_cons, List.not_mem_nil, or_false, ok, bounds, io] at hl
          simp only [Frame.free]
          grind
        exact absurd hfree (Nat.not_le_of_lt hexits)
      · exact absurd hbehind (Nat.not_lt_of_le hl)
  have hexpand' : Listing.expand [] s.next (f.environment.recordFault
      ⟨index, sizes (front ++ .jump f.ok :: before), s.next⟩) = .ok (f.record s) := by
    have hstart : sizes (front ++ .jump f.ok :: before) = s.offset := by
      rw [hoffset, hsite]
      simp [Nat.add_assoc]
    rw [hstart, ← hindex]
    exact hexpand
  obtain ⟨hbounds, exit, hexit, hexitLast⟩ := h.exists_exit (.inr rfl)
  refine ⟨hlt, _, ⟨s.next, (f.record s).1, (f.record s).2, _, exit, hexpand', rfl, ?_, ?_, hexit⟩,
    ⟨_, _, hitems, hlast', rfl⟩⟩
  · have hrecord : f.layout is = (front ++ .jump f.ok :: before ++ [.bind l]) ++
        ((f.record s).1 ++ .jump f.bounds :: (back ++ f.epilogueItems is)) := by
      rw [hitems]
      simp
    simpa using h.codes hrecord
  · have hleave : f.layout is = (front ++ .jump f.ok :: before ++ .bind l :: (f.record s).1) ++
        .jump f.bounds :: (back ++ f.epilogueItems is) := by
      rw [hitems]
      simp
    simpa [Nat.add_assoc] using h.jumpsAt hleave hbounds hexitLast

/-- A loop end branches to the address of its target. -/
theorem exists_target (h : f.Generated is d code) {target : Nat} (hk : target ≤ f.size) :
    ∃ there, code.addresses[target]? = some there ∧
      LastBound (f.layout is) (f.address target) there := by
  obtain ⟨front, hfront⟩ := layout_eq_append_tail f is target
  exact ⟨sizes front, h.getElem?_addresses hk hfront, h.lastBound_address hk hfront⟩

end Generated

theorem Generated.branches {f : Frame} {is : List Instruction} {d : Draft} {code : MachineCode}
    (h : f.Generated is d code) {index start stop : Nat} {s : Site} {i : Instruction}
    {items : List (Item Label)} (hplaced : (f.placed f.start is)[index]? = some ⟨s, i⟩)
    (hcodes : d.Codes code start stop (f.piece ⟨s, i⟩).1) (hshape : shape? i = some items) :
    ∃ rel, code.between start stop = filled rel items ∧
      f.Branches d code s.index start items rel i := by
  have hfragment := h.drafted.fragments _ (List.mem_of_getElem? hplaced)
  cases i with
  | move delta =>
    obtain rfl := Option.some.inj hshape
    by_cases hdelta : delta = 0
    · subst hdelta
      exact ⟨0, codeBytes_filled hcodes (fun b hb => by cases hb), fun hne => absurd rfl hne⟩
    · obtain ⟨k, hfields⟩ := fixupsFrom_moveItems hdelta start
      obtain ⟨hlt, stub, hstub, hlast⟩ :=
        h.exists_stub (mem_stubs_of_placed hplaced)
      obtain ⟨rel, hbytes, hbranches⟩ := h.branchesTo (moveItems delta) hcodes hlt hlast hfields
        fun rel => filled_moveItems delta rel s.next
      exact ⟨rel, hbytes, fun _ => ⟨stub, hstub, hbranches⟩⟩
  | add delta =>
    obtain rfl := Option.some.inj hshape
    refine ⟨0, codeBytes_filled hcodes fun b hb => ?_, trivial⟩
    rw [fixupsFrom_addItems] at hb
    cases hb
  | input => cases hshape
  | output => cases hshape
  | loopOpen target =>
    obtain rfl := Option.some.inj hshape
    obtain ⟨htarget, hpiece⟩ := loopFragment_eq_ok.mp hfragment
    obtain ⟨there, hthere, hlast⟩ := h.exists_target htarget
    rw [hpiece] at hcodes
    obtain ⟨rel, hbytes, hbranches⟩ := h.branchesTo (loopItems .equal) hcodes
      (h.address_lt_next htarget) hlast (fun _ => rfl) fun _ => rfl
    exact ⟨rel, hbytes, there, hthere, hbranches⟩
  | loopClose target =>
    obtain rfl := Option.some.inj hshape
    obtain ⟨htarget, hpiece⟩ := loopFragment_eq_ok.mp hfragment
    obtain ⟨there, hthere, hlast⟩ := h.exists_target htarget
    rw [hpiece] at hcodes
    obtain ⟨rel, hbytes, hbranches⟩ := h.branchesTo (loopItems .notEqual) hcodes
      (h.address_lt_next htarget) hlast (fun _ => rfl) fun _ => rfl
    exact ⟨rel, hbytes, there, hthere, hbranches⟩

theorem Generated.arranged {f : Frame} {is : List Instruction} {d : Draft} {code : MachineCode}
    (h : f.Generated is d code) : f.Arranged is d code where
  length_addresses := h.length_addresses
  ascending := h.ascending
  prologue := by
    refine ⟨(expansion [] 0 f.environment.prologue).1, ?_, ?_, ?_⟩
    · rw [h.first]
      exact h.drafted.prologue
    · have hlayout : f.layout is =
          [] ++ ((expansion [] 0 f.environment.prologue).1 ++ f.tail is 0) := rfl
      simpa using h.codes hlayout
    · exact h.getElem?_addresses (Nat.zero_le _) rfl
  fragments := by
    intro index instr start stop hi hstart hstop
    obtain ⟨s, front, rfl, hoffset, hplaced, hlayout, hstart', hstop'⟩ := h.exists_piece hi
    obtain rfl := Option.some.inj (hstart'.symm.trans hstart)
    obtain rfl := Option.some.inj (hstop'.symm.trans hstop)
    have hfragment : fragment f ⟨s.index, sizes front, s.next⟩ instr = .ok (f.piece ⟨s, instr⟩) := by
      rw [← hoffset]
      exact h.drafted.fragments _ (List.mem_of_getElem? hplaced)
    exact ⟨s.next, _, _, hfragment, h.codes hlayout⟩
  branches := by
    intro index instr start stop items hi hstart hstop hshape
    obtain ⟨s, front, rfl, -, hplaced, hlayout, hstart', hstop'⟩ := h.exists_piece hi
    obtain rfl := Option.some.inj (hstart'.symm.trans hstart)
    obtain rfl := Option.some.inj (hstop'.symm.trans hstop)
    exact h.branches hplaced (h.codes hlayout) hshape
  ending := by
    obtain ⟨front, hfront, hstart, -⟩ := h.layout_last
    obtain ⟨hlt, exit, hexit, hlast⟩ := h.exists_exit (.inl rfl)
    exact ⟨sizes front, exit, hstart, h.jumpsAt hfront hlt hlast, hexit⟩

end Frame

section

variable {p : Program} {env : Environment} {policy : EndOfInput} {code : MachineCode}

theorem generated_of_generate (h : generate p env policy = .ok code) :
    ∃ d, draft p env policy = .ok (.of p env policy, d) ∧
      (Frame.of p env policy).Generated p.instructions.toList d code := by
  obtain ⟨⟨f, d⟩, hdraft, hassemble⟩ := Except.bind_eq_ok.mp h
  have hdrafted := drafted_of_draft hdraft
  obtain ⟨d', hdraft', hitems, hnext⟩ := draft_of_drafted hdrafted
  obtain ⟨rfl, rfl⟩ := Prod.mk.inj (Except.ok.inj (hdraft'.symm.trans hdraft))
  simp only at hassemble
  split at hassemble
  next => cases hassemble
  next a ha =>
    obtain rfl := Except.ok.inj hassemble
    obtain ⟨hcode, hlabels, -⟩ := assemble_eq_ok.mp ha
    exact ⟨_, hdraft, rfl, rfl, hdrafted, hitems, hnext, hcode, a.labels, hlabels, rfl⟩

/-- Whatever the hooks of an environment emit, generated code is arranged by its addresses. -/
theorem generate_arranges (h : generate p env policy = .ok code) :
    ∃ f d, draft p env policy = .ok (f, d) ∧
      (f.environment = env ∧ f.policy = policy ∧ f.size = p.size) ∧
      f.Arranged p.instructions.toList d code := by
  obtain ⟨d, hdraft, hgenerated⟩ := generated_of_generate h
  exact ⟨_, d, hdraft, ⟨rfl, rfl, rfl⟩, hgenerated.arranged⟩

end

/-- Hooks that bind what they are given and labels of their own, some of them twice, and that emit what
the index, the offset and the number of labels tell them to. -/
def tangled : Environment where
  prologue := [.label "start", jump "start", bind "start", bind "start"]
  readByte s := [.label "again", bind "again", bind "eof", branch .equal "again",
    branch .below "io_error"] ++ plain [.movImm32 .rax (UInt32.ofNat s.offset)]
  writeByte s := [bind "io_error", .label "over", jump "over", bind "over"] ++
    plain (List.replicate s.next .ret)
  recordFault s := [.label "here", bind "here"] ++
    if s.index = 1 then plain [.movImm32 .rax (UInt32.ofNat s.index)] else [jump "here"]
  epilogue s := [bind "bounds", bind "io", bind "ok", bind "bounds"] ++
    plain [.movImm32 .rcx (UInt32.ofNat s.offset), .ret]

/-- Loops over each other's ends, moves and additions both ways, and moves and additions that do
nothing. -/
def crossing : Program :=
  ⟨#[.loopOpen 7, .move 3, .input, .loopOpen 0, .add 5, .move (-2), .output, .loopClose 3, .add (-128),
    .move 0, .add 0, .input, .loopClose 13]⟩

theorem generate_arranges_tangled :
    ∃ code, generate crossing tangled .zero = .ok code ∧
      ∃ f d, draft crossing tangled .zero = .ok (f, d) ∧
        (f.environment = tangled ∧ f.policy = .zero ∧ f.size = crossing.size) ∧
        f.Arranged crossing.instructions.toList d code := by
  have hok : (generate crossing tangled .zero).toOption.isSome := by decide +kernel
  cases h : generate crossing tangled .zero with
  | error e =>
    rw [h] at hok
    cases hok
  | ok code => exact ⟨code, rfl, generate_arranges h⟩

end TapeLang.Native
