import TapeLang.Native.Generate
import TapeLang.Proofs.Assembly.Patching

/-!
# The layout of generated code

The items of a program are those of the prologue, one fragment behind the label of each index, the
jump at the end, one stub for each move, and the epilogue.
-/

namespace TapeLang.Native

open X86 Assembly

/-- The items of a hook and the next label not in use. -/
def expansion (scope : Scope) (next : Nat) (lines : List Line) : List (Item Label) × Nat :=
  (Listing.expand scope next lines).toOption.getD ([], next)

/-- An instruction and where its fragment goes. -/
structure Placed where
  site : Site
  instr : Instruction

namespace Frame

/-- The fragment of an instruction and the next label not in use. -/
def piece (f : Frame) (p : Placed) : List (Item Label) × Nat :=
  (fragment f p.site p.instr).toOption.getD ([], p.site.next)

/-- The site behind an instruction. -/
def following (f : Frame) (p : Placed) : Site :=
  { p.site.past (f.piece p).1 (f.piece p).2 with index := p.site.index + 1 }

def placed (f : Frame) : Site → List Instruction → List Placed
  | _, [] => []
  | s, i :: rest => ⟨s, i⟩ :: f.placed (f.following ⟨s, i⟩) rest

/-- The site behind the fragments. -/
def behind (f : Frame) : Site → List Instruction → Site
  | s, [] => s
  | s, i :: rest => f.behind (f.following ⟨s, i⟩) rest

/-- The fragments, each behind the label of its index. -/
def fragments (f : Frame) (ps : List Placed) : List (Item Label) :=
  ps.flatMap fun p => .bind (f.address p.site.index) :: (f.piece p).1

/-- The stub of an instruction, if it has one. -/
def stub? (p : Placed) : Option (Nat × Nat) :=
  match p.instr with
  | .move _ => some (p.site.next, p.site.index)
  | _ => none

/-- What a stub at a site notes, and the next label not in use. -/
def record (f : Frame) (s : Site) : List (Item Label) × Nat :=
  expansion [] s.next (f.environment.recordFault s)

/-- The code of stubs and the site behind it. -/
def stubCode (f : Frame) : Site → List (Nat × Nat) → List (Item Label) × Site
  | s, [] => ([], s)
  | s, (l, index) :: rest =>
    let note := f.record { s with index }
    let code := f.stubCode (s.past (.bind l :: (note.1 ++ [.jump f.bounds])) note.2) rest
    (.bind l :: (note.1 ++ .jump f.bounds :: code.1), code.2)

def exits (f : Frame) : Scope :=
  [("ok", f.ok), ("bounds", f.bounds), ("io", f.io)]

/-- The epilogue behind a site, and the number of labels. -/
def leaving (f : Frame) (s : Site) : List (Item Label) × Nat :=
  expansion f.exits s.next (f.environment.epilogue { s with index := f.size })

/-- The site of the first stub. -/
def atStubs (f : Frame) (s : Site) : Site :=
  s.past [.bind (f.address f.size), .jump f.ok] s.next

/-- Everything behind the fragments. -/
def ending (f : Frame) (s : Site) (stubs : List (Nat × Nat)) : List (Item Label) :=
  let code := f.stubCode (f.atStubs s) stubs
  .bind (f.address f.size) :: .jump f.ok :: (code.1 ++ (f.leaving code.2).1)

end Frame

/-! Which labels items bind and use. -/

/-- The labels of some items are in order: they bind those in `given` and their own ones, from `next` up
to `behind`, once each, but for the `missing` ones, and branch only to those in `known` and to their
own. -/
structure Orderly (given missing known : List Label) (next behind : Nat)
    (items : List (Item Label)) : Prop where
  le : next ≤ behind
  bound : ∀ l : Nat, (boundLabels items).count l + missing.count l =
    given.count l + if next ≤ l ∧ l < behind then 1 else 0
  used : ∀ l : Nat, l ∈ usedLabels items → l ∈ known ∨ next ≤ l ∧ l < behind

namespace Orderly

variable {given given' missing missing' known : List Label} {next middle behind : Nat}
  {xs ys : List (Item Label)}

theorem append (hx : Orderly given missing known next middle xs)
    (hy : Orderly given' missing' known middle behind ys) :
    Orderly (given ++ given') (missing ++ missing') known next behind (xs ++ ys) := by
  have hle := hx.le
  have hle' := hy.le
  refine ⟨by omega, fun l => ?_, fun l hl => ?_⟩
  · have hbx := hx.bound l
    have hby := hy.bound l
    have hsplit : (if next ≤ l ∧ l < behind then 1 else 0) =
        (if next ≤ l ∧ l < middle then 1 else 0) + if middle ≤ l ∧ l < behind then 1 else 0 := by
      split <;> split <;> split <;> omega
    rw [boundLabels_append, List.count_append, List.count_append, List.count_append, hsplit]
    omega
  · rw [usedLabels_append, List.mem_append] at hl
    rcases hl with hl | hl
    · rcases hx.used l hl with h | h
      · exact .inl h
      · exact .inr (by omega)
    · rcases hy.used l hl with h | h
      · exact .inl h
      · exact .inr (by omega)

theorem bind (l : Label) (h : Orderly given missing known next behind xs) :
    Orderly (l :: given) missing known next behind (.bind l :: xs) := by
  refine ⟨h.le, fun k => ?_, h.used⟩
  have hb := h.bound k
  rw [boundLabels_bind, List.count_cons, List.count_cons]
  omega

theorem jump {l : Label} (hl : l ∈ known) (h : Orderly given missing known next behind xs) :
    Orderly given missing known next behind (.jump l :: xs) := by
  refine ⟨h.le, h.bound, fun k hk => ?_⟩
  rcases List.mem_cons.mp hk with rfl | hk
  · exact .inl hl
  · exact h.used k hk

theorem mono {known' : List Label} (hsub : known ⊆ known')
    (h : Orderly given missing known next behind xs) :
    Orderly given missing known' next behind xs :=
  ⟨h.le, h.bound, fun l hl => (h.used l hl).imp_left fun hk => hsub hk⟩

theorem of_unbound (hbound : boundLabels xs = []) (hused : ∀ l ∈ usedLabels xs, l ∈ known)
    (next : Nat) : Orderly [] [] known next next xs := by
  refine ⟨Nat.le_refl _, fun l => ?_, fun l hl => .inl (hused l hl)⟩
  rw [hbound, if_neg (by omega)]
  rfl

end Orderly

/-- A hook expands with its labels in order. -/
def Hook (scope : Scope) (given : List Label) (lines : List Line) : Prop :=
  ∀ next, ∃ items behind, Listing.expand scope next lines = .ok (items, behind) ∧
    Orderly given [] (scope.map Prod.snd) next behind items

theorem expansion_of_expand {scope : Scope} {next : Nat} {lines : List Line}
    {r : List (Item Label) × Nat} (h : Listing.expand scope next lines = .ok r) :
    expansion scope next lines = r := by
  rw [expansion, h]
  rfl

theorem Hook.expand {scope : Scope} {given : List Label} {lines : List Line}
    (h : Hook scope given lines) (next : Nat) :
    Listing.expand scope next lines = .ok (expansion scope next lines) ∧
      Orderly given [] (scope.map Prod.snd) next (expansion scope next lines).2
        (expansion scope next lines).1 := by
  obtain ⟨items, behind, hexpand, horder⟩ := h next
  rw [expansion_of_expand hexpand]
  exact ⟨hexpand, horder⟩

/-- What code generation relies on. -/
structure Environment.Tidy (env : Environment) : Prop where
  prologue : Hook [] [] env.prologue
  readByte : ∀ eof io s, Hook [("eof", eof), ("io_error", io)] [] (env.readByte s)
  writeByte : ∀ io s, Hook [("io_error", io)] [] (env.writeByte s)
  recordFault : ∀ s, Hook [] [] (env.recordFault s)
  epilogue : ∀ ok bounds io s,
    Hook [("ok", ok), ("bounds", bounds), ("io", io)] [ok, bounds, io] (env.epilogue s)

/-- No loop jumps behind the end of the program. -/
def TargetsWithin (size : Nat) (i : Instruction) : Prop :=
  match i with
  | .loopOpen target | .loopClose target => target ≤ size
  | _ => True

instance (size : Nat) (i : Instruction) : Decidable (TargetsWithin size i) :=
  match i with
  | .loopOpen target | .loopClose target => inferInstanceAs (Decidable (target ≤ size))
  | .move _ | .add _ | .input | .output => inferInstanceAs (Decidable True)

namespace Frame

variable {f : Frame} {p : Placed}

/-- The labels a fragment may branch to, besides its own. -/
def known (f : Frame) : List Label :=
  f.ok :: f.bounds :: f.io :: List.range' f.first (f.size + 1)

/-! The fragment of each kind of instruction. -/

theorem piece_of_ok {r : List (Item Label) × Nat}
    (h : fragment f p.site p.instr = .ok r) : f.piece p = r := by
  rw [piece, h]
  rfl

theorem piece_move (f : Frame) (s : Site) (d : Int8) :
    f.piece ⟨s, .move d⟩ = (moveItems d s.next, s.next + 1) := rfl

theorem piece_add (f : Frame) (s : Site) (d : Int8) :
    f.piece ⟨s, .add d⟩ = (addItems d, s.next) := rfl

/-- The code that reads a byte for the instruction at a site, and the next label not in use. -/
def reading (f : Frame) (s : Site) : List (Item Label) × Nat :=
  expansion [("eof", s.next), ("io_error", f.io)] (s.next + 3)
    (f.environment.readByte { s with next := s.next + 3 })

/-- The code that writes a byte for the instruction at a site, and the next label not in use. -/
def writing (f : Frame) (s : Site) : List (Item Label) × Nat :=
  expansion [("io_error", f.io)] s.next (f.environment.writeByte s)

theorem fragment_input (tidy : f.environment.Tidy) (s : Site) :
    fragment f s .input = .ok
      (inputItems f.policy (f.reading s).1 s.next (s.next + 1) (s.next + 2), (f.reading s).2) := by
  obtain ⟨hexpand, -⟩ :=
    (tidy.readByte s.next f.io { s with next := s.next + 3 }).expand (s.next + 3)
  simp only [fragment, hexpand]
  rfl

theorem fragment_output (tidy : f.environment.Tidy) (s : Site) :
    fragment f s .output = .ok (f.writing s) := by
  obtain ⟨hexpand, -⟩ := (tidy.writeByte f.io s).expand s.next
  simp only [fragment, hexpand]
  rfl

theorem fragment_loopOpen {target : Nat} (h : target ≤ f.size) (s : Site) :
    fragment f s (.loopOpen target) = .ok (loopItems .equal (f.address target), s.next) :=
  if_pos h

theorem fragment_loopClose {target : Nat} (h : target ≤ f.size) (s : Site) :
    fragment f s (.loopClose target) = .ok (loopItems .notEqual (f.address target), s.next) :=
  if_pos h

private theorem fragment_eq_piece (tidy : f.environment.Tidy) (h : TargetsWithin f.size p.instr) :
    fragment f p.site p.instr = .ok (f.piece p) := by
  have hok : ∃ r, fragment f p.site p.instr = .ok r := by
    obtain ⟨s, instr⟩ := p
    cases instr with
    | move d => exact ⟨_, rfl⟩
    | add d => exact ⟨_, rfl⟩
    | input => exact ⟨_, fragment_input tidy s⟩
    | output => exact ⟨_, fragment_output tidy s⟩
    | loopOpen target => exact ⟨_, fragment_loopOpen h s⟩
    | loopClose target => exact ⟨_, fragment_loopClose h s⟩
  obtain ⟨r, hr⟩ := hok
  rw [hr, piece_of_ok hr]

private theorem first_add_mem_known {k : Nat} (h : k ≤ f.size) : f.address k ∈ f.known := by
  simp only [known, address, List.mem_cons, List.mem_range'_1]
  omega

theorem labels_moveItems (d : Int8) (fault : Nat) :
    boundLabels (moveItems d fault) = [] ∧ ∀ l ∈ usedLabels (moveItems d fault), l = fault := by
  unfold moveItems
  split
  · simp [boundLabels, usedLabels]
  · split <;> simp [boundLabels, usedLabels]

theorem labels_addItems (d : Int8) :
    boundLabels (addItems d) = [] ∧ usedLabels (addItems d) = [] := by
  unfold addItems
  split <;> exact ⟨rfl, rfl⟩

theorem labels_inputItems (policy : EndOfInput) (read : List (Item Label)) (eof store done : Nat) :
    boundLabels (inputItems policy read eof store done) = boundLabels read ++ [eof, store, done] ∧
      ∀ l ∈ usedLabels (inputItems policy read eof store done),
        l ∈ usedLabels read ∨ l = store ∨ l = done := by
  unfold inputItems
  rw [boundLabels_append, usedLabels_append]
  cases policy
  all_goals
    refine ⟨rfl, fun l hl => ?_⟩
    rcases List.mem_append.mp hl with hl | hl
    · exact .inl hl
    · simp [usedLabels, EndOfInput.value?] at hl
      tauto

/-- The labels of a fragment are in order; that of a stub is bound elsewhere. -/
theorem orderly_piece (tidy : f.environment.Tidy) (h : TargetsWithin f.size p.instr) :
    Orderly [] ((stub? p).toList.map Prod.fst) f.known p.site.next (f.piece p).2 (f.piece p).1 := by
  obtain ⟨s, instr⟩ := p
  cases instr with
  | move d =>
    obtain ⟨index, offset, next⟩ := s
    show Orderly [] [next] f.known next (next + 1) (moveItems d next)
    obtain ⟨hbound, hused⟩ := labels_moveItems d next
    refine ⟨Nat.le_succ next, fun l => ?_, fun l hl => .inr ?_⟩
    · rw [hbound]
      grind
    · rw [hused l hl]
      exact ⟨Nat.le_refl _, Nat.lt_succ_self _⟩
  | add d =>
    obtain ⟨hbound, hused⟩ := labels_addItems d
    exact .of_unbound hbound (by simp [hused]) s.next
  | input =>
    have horder := ((tidy.readByte s.next f.io { s with next := s.next + 3 }).expand (s.next + 3)).2
    rw [piece_of_ok (fragment_input tidy s)]
    rw [← reading] at horder
    generalize f.reading s = read at horder
    obtain ⟨index, offset, next⟩ := s
    obtain ⟨read, behind⟩ := read
    show Orderly [] [] f.known next behind
      (inputItems f.policy read next (next + 1) (next + 2))
    obtain ⟨hbound, hused⟩ := labels_inputItems f.policy read next (next + 1) (next + 2)
    have hle : next + 3 ≤ behind := horder.le
    refine ⟨by omega, fun l => ?_, fun l hl => ?_⟩
    · have hb := horder.bound l
      rw [hbound, List.count_append]
      grind
    · rcases hused l hl with hl | rfl | rfl
      · have hu := horder.used l hl
        simp at hu
        rcases hu with (rfl | rfl) | hown
        · exact .inr ⟨Nat.le_refl _, by omega⟩
        · exact .inl (by simp [known])
        · exact .inr (by omega)
      · exact .inr (by omega)
      · exact .inr (by omega)
  | output =>
    obtain ⟨-, horder⟩ := (tidy.writeByte f.io s).expand s.next
    rw [piece_of_ok (fragment_output tidy s)]
    exact horder.mono (by simp [known])
  | loopOpen target =>
    rw [piece_of_ok (fragment_loopOpen h s)]
    exact .of_unbound rfl (by simp [loopItems, usedLabels, first_add_mem_known h]) s.next
  | loopClose target =>
    rw [piece_of_ok (fragment_loopClose h s)]
    exact .of_unbound rfl (by simp [loopItems, usedLabels, first_add_mem_known h]) s.next

private theorem orderly_fragments (tidy : f.environment.Tidy) {is : List Instruction}
    (h : ∀ i ∈ is, TargetsWithin f.size i) (s : Site) :
    Orderly (List.range' (f.address s.index) is.length)
      (((f.placed s is).filterMap stub?).map Prod.fst) f.known s.next
      (f.behind s is).next (f.fragments (f.placed s is)) := by
  induction is generalizing s with
  | nil => exact .of_unbound rfl (by simp [fragments, placed, usedLabels]) s.next
  | cons i rest ih =>
    have hpiece := (orderly_piece (p := ⟨s, i⟩) tidy (h i List.mem_cons_self)).bind
      (f.address s.index)
    have hrest := ih (fun j hj => h j (List.mem_cons_of_mem _ hj)) (f.following ⟨s, i⟩)
    have hall := hpiece.append hrest
    cases hstub : stub? ⟨s, i⟩ <;>
      simpa [fragments, placed, behind, following, hstub, List.range'_succ, address,
        Nat.add_assoc] using hall

private theorem orderly_stubCode (tidy : f.environment.Tidy) (stubs : List (Nat × Nat)) (s : Site) :
    Orderly (stubs.map Prod.fst) [] f.known s.next (f.stubCode s stubs).2.next
      (f.stubCode s stubs).1 := by
  induction stubs generalizing s with
  | nil => exact .of_unbound rfl (by simp [stubCode, usedLabels]) s.next
  | cons stub rest ih =>
    obtain ⟨l, index⟩ := stub
    have hrecord := ((tidy.recordFault { s with index }).expand s.next).2
    have hbounds : f.bounds ∈ f.known := by simp [known]
    have hrest := ih (s.past (.bind l :: ((f.record { s with index }).1 ++ [.jump f.bounds]))
      (f.record { s with index }).2)
    exact ((hrecord.mono (List.nil_subset f.known)).append (hrest.jump hbounds)).bind l

private theorem orderly_ending (tidy : f.environment.Tidy) (stubs : List (Nat × Nat)) (s : Site) :
    Orderly (f.address f.size :: (stubs.map Prod.fst ++ [f.ok, f.bounds, f.io])) [] f.known s.next
      (f.leaving (f.stubCode (f.atStubs s) stubs).2).2 (f.ending s stubs) := by
  obtain ⟨-, hepilogue⟩ := (tidy.epilogue f.ok f.bounds f.io _).expand
    (f.stubCode (f.atStubs s) stubs).2.next
  have hknown : f.exits.map Prod.snd ⊆ f.known := by simp [exits, known]
  have hok : f.ok ∈ f.known := by simp [known]
  have hstubs := orderly_stubCode tidy stubs (f.atStubs s)
  exact ((hstubs.append (hepilogue.mono hknown)).jump hok).bind (f.address f.size)

end Frame

namespace Frame

variable {f : Frame} {is : List Instruction}

/-- The site of the first instruction. -/
def start (f : Frame) : Site :=
  ⟨0, sizes (expansion [] 0 f.environment.prologue).1, f.free⟩

/-- The stubs of some instructions. -/
def stubs (f : Frame) (is : List Instruction) : List (Nat × Nat) :=
  (f.placed f.start is).filterMap stub?

/-- The code from the instruction at an index on. -/
def tail (f : Frame) (is : List Instruction) (index : Nat) : List (Item Label) :=
  f.fragments ((f.placed f.start is).drop index) ++ f.ending (f.behind f.start is) (f.stubs is)

def layout (f : Frame) (is : List Instruction) : List (Item Label) :=
  (expansion [] 0 f.environment.prologue).1 ++ f.tail is 0

/-- The site of the epilogue. -/
def atEpilogue (f : Frame) (is : List Instruction) : Site :=
  (f.stubCode (f.atStubs (f.behind f.start is)) (f.stubs is)).2

def labels (f : Frame) (is : List Instruction) : Nat :=
  (f.leaving (f.atEpilogue is)).2

/-! Drafting lays out. -/

theorem site_append (d : Draft) (items : List (Item Label)) (next index : Nat) :
    (d.append items next).site index = (d.site index).past items next := rfl

private theorem toList_items_append (d : Draft) (items : List (Item Label)) (next : Nat) :
    (d.append items next).items.toList = d.items.toList ++ items := by
  simp [Draft.append]

theorem addInstruction_of_fragment {d : Draft} {i : Instruction} {index : Nat} {s : Site}
    (hs : d.site index = s) (h : fragment f s i = .ok (f.piece ⟨s, i⟩)) :
    ∃ d', d.addInstruction f i index = .ok d' ∧ d'.site (index + 1) = f.following ⟨s, i⟩ ∧
      d'.items.toList = d.items.toList ++ .bind (f.address s.index) :: (f.piece ⟨s, i⟩).1 ∧
      d'.stubs.toList = d.stubs.toList ++ (stub? ⟨s, i⟩).toList := by
  subst hs
  have hadd : d.addInstruction f i index = .ok ((d.requestStub i index).append
      (.bind (f.address index) :: (f.piece ⟨d.site index, i⟩).1) (f.piece ⟨d.site index, i⟩).2) := by
    rw [Draft.addInstruction, h]
    rfl
  refine ⟨_, hadd, ?_, ?_, ?_⟩
  · simp [Draft.append, Draft.requestStub, Draft.site, following, Site.past]
  · rw [toList_items_append]
    rfl
  · cases i <;> simp [Draft.append, Draft.requestStub, Draft.site, stub?]

/-- Every one of these instructions has a fragment. -/
def Framed (f : Frame) (ps : List Placed) : Prop :=
  ∀ p ∈ ps, fragment f p.site p.instr = .ok (f.piece p)

theorem foldlM_addInstruction {d : Draft} {index : Nat} {s : Site} (hs : d.site index = s)
    (h : f.Framed (f.placed s is)) :
    ∃ d', (is.zipIdx index).foldlM
        (fun (d : Draft) (x : Instruction × Nat) => d.addInstruction f x.1 x.2) d = .ok d' ∧
      d'.site (index + is.length) = f.behind s is ∧
      d'.items.toList = d.items.toList ++ f.fragments (f.placed s is) ∧
      d'.stubs.toList = d.stubs.toList ++ (f.placed s is).filterMap stub? := by
  induction is generalizing d index s with
  | nil => exact ⟨d, rfl, hs, by simp [fragments, placed], by simp [placed]⟩
  | cons i rest ih =>
    have hfirst : fragment f s i = .ok (f.piece ⟨s, i⟩) := h _ List.mem_cons_self
    have hrest : f.Framed (f.placed (f.following ⟨s, i⟩) rest) :=
      fun p hp => h p (List.mem_cons_of_mem _ hp)
    obtain ⟨d₁, hadd, hsite, hitems, hstubs⟩ := addInstruction_of_fragment hs hfirst
    obtain ⟨d', hrun, hsite', hitems', hstubs'⟩ := ih hsite hrest
    refine ⟨d', ?_, ?_, ?_, ?_⟩
    · rw [List.zipIdx_cons, List.foldlM_cons]
      exact Except.bind_eq_ok.mpr ⟨d₁, hadd, hrun⟩
    · rw [List.length_cons, Nat.add_comm rest.length, ← Nat.add_assoc]
      exact hsite'
    · simp [hitems', hitems, fragments, placed]
    · cases hstub : stub? ⟨s, i⟩ <;> simp [hstubs', hstubs, placed, hstub]

/-- The hook of every one of these stubs expands. -/
def Recorded (f : Frame) : Site → List (Nat × Nat) → Prop
  | _, [] => True
  | s, (l, index) :: rest =>
    Listing.expand [] s.next (f.environment.recordFault { s with index }) =
      .ok (f.record { s with index }) ∧
    f.Recorded (s.past (.bind l :: ((f.record { s with index }).1 ++ [.jump f.bounds]))
      (f.record { s with index }).2) rest

theorem foldlM_addStub {d : Draft} {index : Nat} {s : Site} {stubs : List (Nat × Nat)}
    (hs : d.site index = s) (h : f.Recorded s stubs) :
    ∃ d', stubs.foldlM (Draft.addStub f) d = .ok d' ∧ d'.site index = (f.stubCode s stubs).2 ∧
      d'.items.toList = d.items.toList ++ (f.stubCode s stubs).1 := by
  induction stubs generalizing d s with
  | nil => exact ⟨d, rfl, hs, by simp [stubCode]⟩
  | cons stub rest ih =>
    subst hs
    obtain ⟨hfirst, hrest⟩ := h
    obtain ⟨d', hrun, hsite, hitems⟩ := ih (site_append ..) hrest
    refine ⟨d', ?_, hsite, ?_⟩
    · rw [List.foldlM_cons]
      exact Except.bind_eq_ok.mpr ⟨_, Except.bind_eq_ok.mpr
        ⟨_, Refusal.ofBreach_eq_ok.mpr hfirst, rfl⟩, hrun⟩
    · rw [hitems, toList_items_append]
      simp [stubCode]

/-- All hooks a program needs expand, and no loop leads outside. -/
structure Drafted (f : Frame) (is : List Instruction) : Prop where
  prologue : Listing.expand [] 0 f.environment.prologue =
    .ok (expansion [] 0 f.environment.prologue)
  fragments : f.Framed (f.placed f.start is)
  stubs : f.Recorded (f.atStubs (f.behind f.start is)) (f.stubs is)
  epilogue : Listing.expand f.exits (f.atEpilogue is).next
      (f.environment.epilogue { f.atEpilogue is with index := f.size }) =
    .ok (f.leaving (f.atEpilogue is))

theorem instr_mem_of_mem_placed {p : Placed} {s : Site} (h : p ∈ f.placed s is) :
    p.instr ∈ is := by
  induction is generalizing s with
  | nil => cases h
  | cons i rest ih =>
    rcases List.mem_cons.mp h with rfl | h
    · exact List.mem_cons_self
    · exact List.mem_cons_of_mem _ (ih h)

theorem framed_of_tidy (tidy : f.environment.Tidy) (h : ∀ i ∈ is, TargetsWithin f.size i)
    (s : Site) : f.Framed (f.placed s is) :=
  fun _ hp => fragment_eq_piece tidy (h _ (instr_mem_of_mem_placed hp))

private theorem recorded_of_tidy (tidy : f.environment.Tidy) (s : Site) (stubs : List (Nat × Nat)) :
    f.Recorded s stubs := by
  induction stubs generalizing s with
  | nil => trivial
  | cons stub rest ih => exact ⟨((tidy.recordFault _).expand s.next).1, ih _⟩

private theorem drafted_of_tidy (tidy : f.environment.Tidy) (h : ∀ i ∈ is, TargetsWithin f.size i) :
    f.Drafted is where
  prologue := (tidy.prologue.expand 0).1
  fragments := framed_of_tidy tidy h f.start
  stubs := recorded_of_tidy tidy _ _
  epilogue := ((tidy.epilogue f.ok f.bounds f.io _).expand _).1

end Frame

/-- The frame of a program. -/
def Frame.of (p : Program) (env : Environment) (policy : EndOfInput) : Frame :=
  ⟨env, policy, (expansion [] 0 env.prologue).2, p.size⟩

theorem draft_of_drafted {p : Program} {env : Environment} {policy : EndOfInput}
    (h : (Frame.of p env policy).Drafted p.instructions.toList) :
    ∃ d, draft p env policy = .ok (.of p env policy, d) ∧
      d.items.toList = (Frame.of p env policy).layout p.instructions.toList ∧
      d.next = (Frame.of p env policy).labels p.instructions.toList := by
  obtain ⟨hprologue, hfragments, hstubs, hepilogue⟩ := h
  generalize hf : Frame.of p env policy = f at hprologue hfragments hstubs hepilogue ⊢
  generalize his : p.instructions.toList = is at hfragments hstubs hepilogue ⊢
  have henv : f.environment = env := by rw [← hf, Frame.of]
  rw [henv] at hprologue
  have hfirst : Draft.site ⟨(expansion [] 0 env.prologue).1.toArray,
      sizes (expansion [] 0 env.prologue).1, f.free, #[]⟩ 0 = f.start := by
    rw [Frame.start, henv]
    rfl
  obtain ⟨d₁, hbody, hsite₁, hitems₁, hstubs₁⟩ := Frame.foldlM_addInstruction hfirst hfragments
  have hend : (Draft.addEnd f d₁).site (0 + is.length) = f.atStubs (f.behind f.start is) := by
    rw [← hsite₁]
    rfl
  obtain ⟨d₂, hnotes, hsite₂, hitems₂⟩ := Frame.foldlM_addStub hend hstubs
  have hnext : d₂.next = (f.atEpilogue is).next := congrArg Site.next hsite₂
  have hsite : d₂.site f.size = { f.atEpilogue is with index := f.size } := by
    rw [Frame.atEpilogue, ← hsite₂]
    rfl
  have hstubs' : d₁.stubs.toList = f.stubs is := by simpa [Frame.stubs] using hstubs₁
  have hlast : d₂.addEpilogue f =
      .ok (d₂.append (f.leaving (f.atEpilogue is)).1 (f.leaving (f.atEpilogue is)).2) := by
    rw [← hsite, ← hnext] at hepilogue
    exact Except.bind_eq_ok.mpr ⟨_, Refusal.ofBreach_eq_ok.mpr hepilogue, rfl⟩
  refine ⟨d₂.append (f.leaving (f.atEpilogue is)).1 (f.leaving (f.atEpilogue is)).2, ?_, ?_, rfl⟩
  · have hframe : (⟨env, policy, (expansion [] 0 env.prologue).2, p.size⟩ : Frame) = f := hf
    simp only [draft, hprologue, Refusal.ofBreach, Bind.bind, Except.bind, hframe, his, hbody, hstubs',
      hnotes, hlast]
    rfl
  · rw [Frame.toList_items_append, hitems₂, Draft.addEnd, Frame.toList_items_append, hitems₁]
    simp [Frame.layout, Frame.tail, Frame.ending, henv, Frame.atEpilogue]

theorem draft_eq {p : Program} {env : Environment} (tidy : env.Tidy)
    (h : ∀ i ∈ p.instructions.toList, TargetsWithin p.size i) (policy : EndOfInput) :
    ∃ d, draft p env policy = .ok (.of p env policy, d) ∧
      d.items.toList = (Frame.of p env policy).layout p.instructions.toList ∧
      d.next = (Frame.of p env policy).labels p.instructions.toList :=
  draft_of_drafted (Frame.drafted_of_tidy (f := .of p env policy) tidy h)

namespace Frame

variable {f : Frame} {is : List Instruction}

/-- The labels of a whole program are in order. -/
theorem orderly_tail (tidy : f.environment.Tidy) (h : ∀ i ∈ is, TargetsWithin f.size i)
    (hsize : is.length = f.size) :
    Orderly (List.range' f.first (f.size + 1) ++ [f.ok, f.bounds, f.io]) [] f.known f.free
      (f.labels is) (f.tail is 0) := by
  have hfragments := orderly_fragments tidy h f.start
  have hending := orderly_ending tidy (f.stubs is) (f.behind f.start is)
  have hall : Orderly _ _ f.known f.free (f.labels is) (f.tail is 0) := hfragments.append hending
  refine ⟨hall.le, fun l => ?_, hall.used⟩
  have hbound := hall.bound l
  have hstart : f.address f.start.index = f.first := rfl
  rw [hsize, hstart] at hbound
  simp only [List.count_append, List.count_cons, List.append_nil, address, Nat.add_zero,
    List.range'_1_concat, stubs, List.count_nil] at hbound ⊢
  omega

/-- Every label is bound once. -/
theorem count_boundLabels_layout (tidy : f.environment.Tidy)
    (h : ∀ i ∈ is, TargetsWithin f.size i) (hsize : is.length = f.size)
    (hfirst : f.first = (expansion [] 0 f.environment.prologue).2) (l : Nat) :
    (boundLabels (f.layout is)).count l = if l < f.labels is then 1 else 0 := by
  obtain ⟨-, hprologue⟩ := tidy.prologue.expand 0
  have htail := orderly_tail tidy h hsize
  have hle : f.first + f.size + 4 ≤ f.labels is := htail.le
  have hbound := hprologue.bound l
  have hbound' := htail.bound l
  rw [← hfirst] at hbound
  rw [layout, boundLabels_append, List.count_append]
  simp only [List.count_append, List.count_cons, List.count_nil, List.count_range_1', beq_iff_eq, ok,
    bounds, io, free] at hbound hbound'
  grind

private theorem used_layout (tidy : f.environment.Tidy) (h : ∀ i ∈ is, TargetsWithin f.size i)
    (hsize : is.length = f.size) (hfirst : f.first = (expansion [] 0 f.environment.prologue).2) :
    ∀ l : Nat, l ∈ usedLabels (f.layout is) → l < f.labels is := by
  obtain ⟨-, hprologue⟩ := tidy.prologue.expand 0
  have htail := orderly_tail tidy h hsize
  have hle : f.first + f.size + 4 ≤ f.labels is := htail.le
  intro l hl
  rw [layout, usedLabels_append, List.mem_append] at hl
  rcases hl with hl | hl
  · have hused := hprologue.used l hl
    rw [← hfirst] at hused
    grind
  · have hused := htail.used l hl
    simp only [known, ok, bounds, io, List.mem_cons, List.mem_range'_1] at hused
    grind

end Frame

/-- Hooks are checked item by item. -/
theorem breach?_of_expand {scope : Scope} {next behind : Nat} {lines : List Line}
    {items : List (Item Label)} (h : Listing.expand scope next lines = .ok (items, behind)) :
    ∀ item ∈ items, item.breach? = none := by
  induction lines generalizing scope next items with
  | nil =>
    obtain ⟨rfl, -⟩ := Prod.mk.inj (Except.ok.inj h)
    simp
  | cons line rest ih =>
    cases line with
    | label name => exact ih h
    | item i =>
      obtain ⟨item, more, -, hbreach, hrest, rfl⟩ := Listing.expand_item_eq_ok h
      simpa [hbreach] using ih hrest

theorem breach?_expansion (scope : Scope) (next : Nat) (lines : List Line) :
    ∀ item ∈ (expansion scope next lines).1, item.breach? = none := by
  unfold expansion
  cases h : Listing.expand scope next lines with
  | error b => simp [Except.toOption]
  | ok r => exact breach?_of_expand h

namespace Frame

variable {f : Frame} {is : List Instruction}

theorem breach?_piece (tidy : f.environment.Tidy) {p : Placed} (h : TargetsWithin f.size p.instr) :
    ∀ item ∈ (f.piece p).1, item.breach? = none := by
  obtain ⟨s, instr⟩ := p
  cases instr with
  | move d =>
    simp only [piece_move, moveItems]
    split
    · simp [Item.breach?, Instr.breach?, Instr.mem?]
    · split <;> simp [Item.breach?, Instr.breach?, Instr.mem?]
  | add d =>
    simp only [piece_add, addItems]
    split <;> simp [Item.breach?, Instr.breach?, Instr.mem?, cell, pointerReg]
  | input =>
    have hread : ∀ item ∈ (f.reading s).1, item.breach? = none := breach?_expansion _ _ _
    rw [piece_of_ok (fragment_input tidy s)]
    intro item hitem
    rcases List.mem_append.mp hitem with hitem | hitem
    · exact hread item hitem
    · cases hpolicy : f.policy <;> simp [hpolicy, EndOfInput.value?] at hitem <;>
        rcases hitem with rfl | rfl | rfl | rfl | rfl | rfl <;> rfl
  | output =>
    rw [piece_of_ok (fragment_output tidy s)]
    exact breach?_expansion _ _ _
  | loopOpen target =>
    rw [piece_of_ok (fragment_loopOpen h s)]
    simp [loopItems, Item.breach?, Instr.breach?, Instr.mem?, cell, pointerReg]
  | loopClose target =>
    rw [piece_of_ok (fragment_loopClose h s)]
    simp [loopItems, Item.breach?, Instr.breach?, Instr.mem?, cell, pointerReg]

section

variable {P : Item Label → Prop}

private theorem forall_mem_stubCode (bind : ∀ l, P (.bind l)) (jump : ∀ l, P (.jump l))
    (records : ∀ s, ∀ item ∈ (f.record s).1, P item)
    (s : Site) (stubs : List (Nat × Nat)) : ∀ item ∈ (f.stubCode s stubs).1, P item := by
  induction stubs generalizing s with
  | nil => simp [stubCode]
  | cons stub rest ih =>
    obtain ⟨l, index⟩ := stub
    intro item hitem
    simp only [stubCode, List.mem_append, List.mem_cons] at hitem
    rcases hitem with rfl | hitem | rfl | hitem
    · exact bind l
    · exact records _ item hitem
    · exact jump _
    · exact ih _ item hitem

/-- What holds of every fragment and hook, and of bindings and jumps, holds of the code behind the
prologue. -/
theorem forall_mem_tail (bind : ∀ l, P (.bind l)) (jump : ∀ l, P (.jump l))
    (pieces : ∀ p ∈ f.placed f.start is, ∀ item ∈ (f.piece p).1, P item)
    (records : ∀ s, ∀ item ∈ (f.record s).1, P item)
    (epilogue : ∀ s, ∀ item ∈ (f.leaving s).1, P item)
    (index : Nat) : ∀ item ∈ f.tail is index, P item := by
  intro item hitem
  simp only [tail, ending, fragments, List.mem_append, List.mem_flatMap, List.mem_cons] at hitem
  rcases hitem with ⟨p, hp, rfl | hitem⟩ | rfl | rfl | hitem | hitem
  · exact bind _
  · exact pieces p (List.mem_of_mem_drop hp) item hitem
  · exact bind _
  · exact jump _
  · exact forall_mem_stubCode bind jump records _ _ item hitem
  · exact epilogue _ item hitem

end

/-- Every item can be encoded. -/
theorem breach?_layout (tidy : f.environment.Tidy) (h : ∀ i ∈ is, TargetsWithin f.size i) :
    ∀ item ∈ f.layout is, item.breach? = none := by
  intro item hitem
  rcases List.mem_append.mp hitem with hitem | hitem
  · exact breach?_expansion _ _ _ item hitem
  · exact forall_mem_tail (fun _ => rfl) (fun _ => rfl)
      (fun p hp => breach?_piece tidy (h _ (instr_mem_of_mem_placed hp)))
      (fun _ => breach?_expansion _ _ _) (fun _ => breach?_expansion _ _ _) 0 item hitem

/-! Where things are. -/

theorem length_placed (f : Frame) (s : Site) (is : List Instruction) :
    (f.placed s is).length = is.length := by
  induction is generalizing s with
  | nil => rfl
  | cons i rest ih => simp [placed, ih]

private theorem getElem?_placed {k : Nat} {i : Instruction} (h : is[k]? = some i) (s : Site) :
    ∃ s', (f.placed s is)[k]? = some ⟨s', i⟩ ∧ s'.index = s.index + k := by
  induction is generalizing s k with
  | nil => simp at h
  | cons j rest ih =>
    cases k with
    | zero =>
      obtain rfl : j = i := by simpa using h
      exact ⟨s, rfl, rfl⟩
    | succ k =>
      obtain ⟨s', hplaced, hindex⟩ := ih (k := k) h (f.following ⟨s, j⟩)
      refine ⟨s', by rw [placed, List.getElem?_cons_succ, hplaced], ?_⟩
      rw [hindex, following, Nat.add_assoc, Nat.add_comm 1]

private theorem tail_of_placed {index : Nat} {p : Placed} (h : (f.placed f.start is)[index]? = some p) :
    f.tail is index = .bind (f.address p.site.index) :: ((f.piece p).1 ++ f.tail is (index + 1)) := by
  obtain ⟨hlt, hget⟩ := List.getElem?_eq_some_iff.mp h
  rw [tail, List.drop_eq_getElem_cons hlt, hget]
  simp [fragments, tail]

/-- An instruction of a program has a place, and the code from there on is its label, its fragment, and
the code from the next one on. -/
theorem exists_placed {index : Nat} {i : Instruction} (h : is[index]? = some i) :
    ∃ s, s.index = index ∧ (f.placed f.start is)[index]? = some ⟨s, i⟩ ∧
      f.tail is index =
        .bind (f.address index) :: ((f.piece ⟨s, i⟩).1 ++ f.tail is (index + 1)) := by
  obtain ⟨s, hplaced, hindex⟩ := getElem?_placed (f := f) h f.start
  obtain rfl : s.index = index := by rw [hindex, start, Nat.zero_add]
  exact ⟨s, rfl, hplaced, tail_of_placed hplaced⟩

theorem mem_stubs_of_placed {s : Site} {delta : Int8} {index : Nat}
    (h : (f.placed f.start is)[index]? = some ⟨s, .move delta⟩) : (s.next, s.index) ∈ f.stubs is :=
  List.mem_filterMap.mpr ⟨_, List.mem_of_getElem? h, rfl⟩

theorem tail_length (f : Frame) (is : List Instruction) :
    f.tail is is.length = f.ending (f.behind f.start is) (f.stubs is) := by
  rw [tail, List.drop_eq_nil_of_le (Nat.le_of_eq (length_placed ..))]
  rfl

theorem layout_eq_append_tail (f : Frame) (is : List Instruction) (index : Nat) :
    ∃ front, f.layout is = front ++ f.tail is index := by
  refine ⟨(expansion [] 0 f.environment.prologue).1 ++
    f.fragments ((f.placed f.start is).take index), ?_⟩
  have hcut : f.fragments (f.placed f.start is) =
      f.fragments ((f.placed f.start is).take index) ++
        f.fragments ((f.placed f.start is).drop index) := by
    rw [fragments, fragments, fragments, ← List.flatMap_append, List.take_append_drop]
  simp only [layout, tail, List.drop_zero, hcut, List.append_assoc]

/-- A stub notes its index and leaves. -/
theorem stubCode_eq {l index : Nat} {stubs : List (Nat × Nat)} (h : (l, index) ∈ stubs) (s : Site) :
    ∃ front s' back, s'.index = index ∧ (f.stubCode s stubs).1 = front ++ .bind l ::
      ((f.record s').1 ++ .jump f.bounds :: back) := by
  induction stubs generalizing s with
  | nil => cases h
  | cons stub rest ih =>
    rcases List.mem_cons.mp h with rfl | hmem
    · exact ⟨[], { s with index }, _, rfl, rfl⟩
    · obtain ⟨l', index'⟩ := stub
      obtain ⟨front, s', back, hindex, hrest⟩ := ih hmem
        (s.past (.bind l' :: ((f.record { s with index := index' }).1 ++ [.jump f.bounds]))
          (f.record { s with index := index' }).2)
      refine ⟨.bind l' :: ((f.record { s with index := index' }).1 ++ .jump f.bounds :: front), s',
        back, hindex, ?_⟩
      simp [stubCode, hrest]

end Frame

/-! Generating assembles the layout. -/

/-- The number of bytes of a program's code. -/
def codeSize (p : Program) (env : Environment) (policy : EndOfInput) : Nat :=
  match draft p env policy with
  | .ok (_, d) => sizes d.items.toList
  | .error _ => 0

section

variable {p : Program} {env : Environment} {policy : EndOfInput}

theorem codeSize_eq (tidy : env.Tidy) (h : ∀ i ∈ p.instructions.toList, TargetsWithin p.size i) :
    codeSize p env policy = sizes ((Frame.of p env policy).layout p.instructions.toList) := by
  obtain ⟨d, hdraft, hitems, -⟩ := draft_eq tidy h policy
  rw [codeSize, hdraft]
  simp only [hitems]

/-- Code generation succeeds for code below 2 GiB. -/
theorem generate_ok (tidy : env.Tidy) (h : ∀ i ∈ p.instructions.toList, TargetsWithin p.size i)
    (small : codeSize p env policy ≤ 2 ^ 31) : ∃ code, generate p env policy = .ok code := by
  obtain ⟨d, hdraft, hitems, hlabels⟩ := draft_eq tidy h policy
  rw [codeSize_eq tidy h] at small
  have hbound : ∀ l < (Frame.of p env policy).labels p.instructions.toList,
      l ∈ boundLabels ((Frame.of p env policy).layout p.instructions.toList) := by
    intro l hl
    have hcount := Frame.count_boundLabels_layout (f := .of p env policy) tidy h rfl rfl l
    rw [if_pos hl] at hcount
    exact List.count_pos_iff.mp (by omega)
  have hused := Frame.used_layout (f := .of p env policy) tidy h rfl rfl
  obtain ⟨a, ha⟩ := assemble_ok hbound hused small
  refine ⟨⟨a.code, 0, a.relocations, (a.labels.drop (Frame.of p env policy).first).take (p.size + 1)⟩,
    ?_⟩
  simp only [generate, hdraft, Bind.bind, Except.bind, hitems, hlabels, ha, pure, Except.pure]

theorem codeBytes_of_generate (tidy : env.Tidy)
    (h : ∀ i ∈ p.instructions.toList, TargetsWithin p.size i) {code : MachineCode}
    (hgenerate : generate p env policy = .ok code) :
    codeBytes (bindings ((Frame.of p env policy).labels p.instructions.toList)
        ((Frame.of p env policy).layout p.instructions.toList)) 0 0
        ((Frame.of p env policy).layout p.instructions.toList) = .ok code.bytes ∧
      code.entry = 0 ∧
      code.relocations = openFields 0 ((Frame.of p env policy).layout p.instructions.toList) := by
  obtain ⟨d, hdraft, hitems, hlabels⟩ := draft_eq tidy h policy
  simp only [generate, hdraft, Bind.bind, Except.bind, hitems, hlabels] at hgenerate
  split at hgenerate
  next => simp at hgenerate
  next a ha =>
    obtain rfl := Except.ok.inj hgenerate
    obtain ⟨hcode, -, hfields⟩ := assemble_eq_ok.mp ha
    exact ⟨hcode, rfl, hfields⟩

theorem length_bytes_of_generate (tidy : env.Tidy)
    (h : ∀ i ∈ p.instructions.toList, TargetsWithin p.size i) {code : MachineCode}
    (hgenerate : generate p env policy = .ok code) : code.bytes.length = codeSize p env policy := by
  rw [length_codeBytes (codeBytes_of_generate tidy h hgenerate).1, codeSize_eq tidy h]

end

end TapeLang.Native
