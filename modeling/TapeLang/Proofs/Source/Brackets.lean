import TapeLang.Source
import Mathlib.Order.Bounds.Basic
import Mathlib.Data.List.Induction
import Mathlib.Tactic.Common
import Mathlib.Tactic.IntervalCases

/-!
# Which bracket a refused text is refused for

Brackets are judged by their balance alone: the number of opens minus the number of closes in front
of them. The stack of pending opens is tied to the balance by `Nested`, which says which opens are
still unclosed behind each prefix of a text.
-/

namespace TapeLang.Source

/-- Opens minus closes. -/
def balance (cs : List Char) : Int :=
  (cs.count '[' : Int) - cs.count ']'

/-- The number of commands among some characters. -/
def commandCount (cs : List Char) : Nat :=
  cs.countP fun c => (Instruction.ofSymbol? c).isSome

/-- The place behind some characters: the lines they end, and the characters of the line begun. -/
def positionBehind (cs : List Char) : Position :=
  ⟨1 + cs.count '\n', 1 + (cs.reverse.takeWhile (· ≠ '\n')).length⟩

/-- The bracket at `k` closes nothing, or opens a loop beyond the limit. -/
def Offends (limit : Nat) (cs : List Char) (k : Nat) : Prop :=
  (cs[k]? = some ']' ∧ balance (cs.take k) = 0) ∨
    (cs[k]? = some '[' ∧ (limit : Int) ≤ balance (cs.take k))

/-- The open at `i` and the close at `j` are partners: between them the brackets are balanced, and no
close reaches out of there. -/
structure Partners (cs : List Char) (i j : Nat) : Prop where
  before : i < j
  opens : cs[i]? = some '['
  closes : cs[j]? = some ']'
  even : balance (cs.take j) = balance (cs.take (i + 1))
  within : ∀ m, i < m → m ≤ j → balance (cs.take (i + 1)) ≤ balance (cs.take m)

/-- The open at `k` has no partner. -/
def Unclosed (cs : List Char) (k : Nat) : Prop :=
  cs[k]? = some '[' ∧ ∀ j, ¬Partners cs k j

/-- The error of a kind for the bracket at `k`. -/
def errorAt (kind : ParseErrorKind) (cs : List Char) (k : Nat) : ParseError :=
  ⟨kind, commandCount (cs.take k), positionBehind (cs.take k)⟩

@[simp] theorem balance_nil : balance [] = 0 := rfl

theorem balance_concat (cs : List Char) (c : Char) :
    balance (cs ++ [c]) =
      balance cs + (if c = '[' then 1 else 0) - (if c = ']' then 1 else 0) := by
  simp only [balance, List.count_append, List.count_singleton, beq_iff_eq]
  split_ifs <;> push_cast <;> omega

private theorem commandCount_concat (cs : List Char) (c : Char) :
    commandCount (cs ++ [c]) =
      commandCount cs + if (Instruction.ofSymbol? c).isSome then 1 else 0 := by
  simp [commandCount, List.countP_append, List.countP_cons]

private theorem positionBehind_concat (cs : List Char) (c : Char) :
    positionBehind (cs ++ [c]) = (positionBehind cs).after c := by
  by_cases h : c = '\n'
  · subst h
    simp [positionBehind, Position.after]
    omega
  · simp [positionBehind, Position.after, h]
    omega

/-- `Nested cs ks`: no close in `cs` is without an open, and `ks` are the places of the opens still
unclosed, the innermost first. -/
inductive Nested : List Char → List Nat → Prop where
  | nil : Nested [] []
  | comment {cs : List Char} {ks : List Nat} {c : Char} (rest : Nested cs ks)
      (noOpen : c ≠ '[') (noClose : c ≠ ']') : Nested (cs ++ [c]) ks
  | opened {cs : List Char} {ks : List Nat} (rest : Nested cs ks) :
      Nested (cs ++ ['[']) (cs.length :: ks)
  | closed {cs : List Char} {k : Nat} {ks : List Nat} (rest : Nested cs (k :: ks)) :
      Nested (cs ++ [']']) ks

namespace Nested

theorem balance_eq {cs : List Char} {ks : List Nat} (h : Nested cs ks) :
    balance cs = ks.length := by
  induction h with
  | nil => rfl
  | comment _ noOpen noClose ih => simp [balance_concat, noOpen, noClose, ih]
  | opened _ ih => simp [balance_concat, ih]
  | closed _ ih => simp [balance_concat, ih]

theorem lt_length {cs : List Char} {ks : List Nat} (h : Nested cs ks) :
    ∀ k ∈ ks, k < cs.length := by
  induction h with
  | nil => simp
  | comment _ _ _ ih =>
    intro k hk
    have := ih k hk
    simp only [List.length_append, List.length_singleton]
    omega
  | opened _ ih =>
    intro k hk
    simp only [List.length_append, List.length_singleton]
    rcases List.mem_cons.mp hk with rfl | hk
    · omega
    · have := ih k hk
      omega
  | closed _ ih =>
    intro k hk
    have := ih k (List.mem_cons_of_mem _ hk)
    simp only [List.length_append, List.length_singleton]
    omega

private theorem descending {cs : List Char} {ks : List Nat} (h : Nested cs ks) :
    ks.Pairwise (· > ·) := by
  induction h with
  | nil => exact .nil
  | comment _ _ _ ih => exact ih
  | opened rest ih => exact List.pairwise_cons.mpr ⟨rest.lt_length, ih⟩
  | closed _ ih => exact (List.pairwise_cons.mp ih).2

end Nested

/-- The open at `k` stands at a level that the balance has not come back to since. -/
structure Pending (cs : List Char) (k level : Nat) : Prop where
  opens : cs[k]? = some '['
  stands : balance (cs.take k) = level
  above : ∀ m, k < m → m ≤ cs.length → (level : Int) < balance (cs.take m)

namespace Pending

theorem lt_length {cs : List Char} {k level : Nat} (h : Pending cs k level) : k < cs.length :=
  (List.getElem?_eq_some_iff.mp h.opens).1

/-- An open stays pending while the balance stays above its level. -/
theorem concat {cs : List Char} {k level : Nat} {c : Char} (h : Pending cs k level)
    (stays : (level : Int) < balance (cs ++ [c])) : Pending (cs ++ [c]) k level where
  opens := by rw [List.getElem?_append_left h.lt_length]; exact h.opens
  stands := by rw [List.take_append_of_le_length h.lt_length.le]; exact h.stands
  above := by
    intro m hk hm
    rcases Nat.lt_or_ge cs.length m with hlong | hshort
    · have hm' : m = (cs ++ [c]).length := by
        simp only [List.length_append, List.length_singleton] at hm ⊢
        omega
      rw [hm', List.take_length]
      exact stays
    · rw [List.take_append_of_le_length hshort]
      exact h.above m hk hshort

private theorem take_succ {cs : List Char} {k level : Nat} (h : Pending cs k level) :
    balance (cs.take (k + 1)) = level + 1 := by
  rw [List.take_add_one, h.opens, Option.toList_some, balance_concat, h.stands]
  simp

end Pending

namespace Nested

/-- The opens in `ks` are pending, each at the level given by those outside it. -/
theorem pending {cs : List Char} {ks : List Nat} (h : Nested cs ks) {inner outer : List Nat} {k : Nat}
    (hks : ks = inner ++ k :: outer) : Pending cs k outer.length := by
  induction h generalizing inner k outer with
  | nil => simp at hks
  | @comment cs ks c rest noOpen noClose ih =>
    have hbal := (Nested.comment rest noOpen noClose).balance_eq
    apply (ih hks).concat
    rw [hbal, hks]
    simp only [List.length_append, List.length_cons]
    omega
  | @opened cs ks rest ih =>
    have hbal := (Nested.opened rest).balance_eq
    cases inner with
    | nil =>
      obtain ⟨rfl, rfl⟩ := List.cons.inj hks
      refine ⟨by simp, by simpa using rest.balance_eq, ?_⟩
      intro m hk hm
      have hm' : m = (cs ++ ['[']).length := by
        simp only [List.length_append, List.length_singleton] at hm ⊢
        omega
      rw [hm', List.take_length, hbal, List.length_cons]
      omega
    | cons i inner =>
      obtain ⟨rfl, rfl⟩ := List.cons.inj hks
      apply (ih rfl).concat
      rw [hbal]
      simp
      omega
  | @closed cs k' ks rest ih =>
    have hbal := (Nested.closed rest).balance_eq
    have hcons : k' :: ks = (k' :: inner) ++ k :: outer := by rw [hks, List.cons_append]
    apply (ih hcons).concat
    rw [hbal, hks]
    simp only [List.length_append, List.length_cons]
    omega

end Nested

/-- Partners stay partners when the text goes on. -/
theorem Partners.concat {cs : List Char} {i j : Nat} (h : Partners cs i j) (c : Char) :
    Partners (cs ++ [c]) i j := by
  have hj := (List.getElem?_eq_some_iff.mp h.closes).1
  have hi := h.before
  refine ⟨hi, ?_, ?_, ?_, ?_⟩
  · rw [List.getElem?_append_left (by omega)]
    exact h.opens
  · rw [List.getElem?_append_left hj]
    exact h.closes
  · rw [List.take_append_of_le_length hj.le, List.take_append_of_le_length (by omega)]
    exact h.even
  · intro m hm hmj
    rw [List.take_append_of_le_length (by omega), List.take_append_of_le_length (by omega)]
    exact h.within m hm hmj

/-- A close is the partner of the innermost pending open. -/
theorem Nested.partners {cs : List Char} {k : Nat} {ks : List Nat} (h : Nested cs (k :: ks)) :
    Partners (cs ++ [']']) k cs.length := by
  have hpend : Pending cs k ks.length := h.pending (List.nil_append _).symm
  have hk := hpend.lt_length
  have hbal := h.balance_eq
  have hfirst : balance ((cs ++ [']']).take (k + 1)) = ks.length + 1 := by
    rw [List.take_append_of_le_length hk]
    exact hpend.take_succ
  refine ⟨hk, ?_, by simp, ?_, ?_⟩
  · rw [List.getElem?_append_left hk]
    exact hpend.opens
  · rw [hfirst, List.take_left, hbal]
    simp
  · intro m hm hmj
    rw [hfirst, List.take_append_of_le_length hmj]
    exact hpend.above m hm hmj

/-- An open that is no longer pending has found its partner. -/
theorem Nested.mem_or_partners {cs : List Char} {ks : List Nat} (h : Nested cs ks) {k : Nat}
    (opens : cs[k]? = some '[') : k ∈ ks ∨ ∃ j, Partners cs k j := by
  induction h with
  | nil => simp at opens
  | @comment cs ks c rest noOpen _ ih =>
    have hk : k < cs.length := by
      by_contra hlong
      rw [List.getElem?_append_right (by omega), List.getElem?_singleton] at opens
      split at opens
      · exact noOpen (Option.some.inj opens)
      · simp at opens
    rw [List.getElem?_append_left hk] at opens
    rcases ih opens with hmem | ⟨j, hj⟩
    · exact .inl hmem
    · exact .inr ⟨j, hj.concat c⟩
  | @opened cs ks rest ih =>
    by_cases hk : k < cs.length
    · rw [List.getElem?_append_left hk] at opens
      rcases ih opens with hmem | ⟨j, hj⟩
      · exact .inl (List.mem_cons_of_mem _ hmem)
      · exact .inr ⟨j, hj.concat _⟩
    · have hlt := (List.getElem?_eq_some_iff.mp opens).1
      simp only [List.length_append, List.length_singleton] at hlt
      have hlast : k = cs.length := by omega
      exact .inl (hlast ▸ List.mem_cons_self)
  | @closed cs k' ks rest ih =>
    have hk : k < cs.length := by
      by_contra hlong
      rw [List.getElem?_append_right (by omega), List.getElem?_singleton] at opens
      split at opens <;> simp at opens
    rw [List.getElem?_append_left hk] at opens
    rcases ih opens with hmem | ⟨j, hj⟩
    · rcases List.mem_cons.mp hmem with rfl | hmem
      · exact .inr ⟨cs.length, rest.partners⟩
      · exact .inl hmem
    · exact .inr ⟨j, hj.concat _⟩

/-- A pending open has no partner: behind it the balance would be back at its level. -/
theorem Pending.unclosed {cs : List Char} {k level : Nat} (h : Pending cs k level) :
    Unclosed cs k := by
  refine ⟨h.opens, ?_⟩
  intro j hj
  have hlen := (List.getElem?_eq_some_iff.mp hj.closes).1
  have hbefore := hj.before
  have hback : balance (cs.take (j + 1)) = level := by
    rw [List.take_add_one, hj.closes, Option.toList_some, balance_concat, hj.even, h.take_succ]
    simp
  have := h.above (j + 1) (by omega) hlen
  omega

/-- The outermost pending open is the leftmost open without a partner. -/
theorem Nested.isLeast {cs : List Char} {inner : List Nat} {k : Nat}
    (h : Nested cs (inner ++ [k])) : IsLeast { k | Unclosed cs k } k := by
  refine ⟨(h.pending rfl).unclosed, ?_⟩
  rintro k' ⟨opens, alone⟩
  rcases h.mem_or_partners opens with hmem | ⟨j, hj⟩
  · rcases List.mem_append.mp hmem with hmem | hmem
    · have hdesc := (List.pairwise_append.mp h.descending).2.2
      exact (hdesc k' hmem k (List.mem_singleton.mpr rfl)).le
    · exact (List.mem_singleton.mp hmem).ge
  · exact absurd hj (alone j)

/-- What the stack keeps of the open at `k`. -/
def entry (cs : List Char) (k : Nat) : Nat × Position :=
  (commandCount (cs.take k), positionBehind (cs.take k))

private theorem Nested.map_entry_concat {cs : List Char} {ks : List Nat} (h : Nested cs ks) (c : Char) :
    ks.map (entry (cs ++ [c])) = ks.map (entry cs) := by
  apply List.map_congr_left
  intro k hk
  simp only [entry, List.take_append_of_le_length (h.lt_length k hk).le]

/-- What is known behind the characters `cs`, with the opens at `ks` unclosed. -/
structure Reading (cs : List Char) (ks : List Nat) (s : ParseState) : Prop where
  nested : Nested cs ks
  size : s.code.size = commandCount cs
  position : s.position = positionBehind cs
  pending : s.pending.toList = (ks.map (entry cs)).reverse

theorem Reading.size_pending {cs : List Char} {ks : List Nat} {s : ParseState}
    (h : Reading cs ks s) : s.pending.size = ks.length := by
  rw [← Array.length_toList, h.pending, List.length_reverse, List.length_map]

private theorem reading_nil : Reading [] [] {} :=
  ⟨.nil, rfl, rfl, rfl⟩

/-- The classes of characters, each with the instruction it stands for. -/
theorem symbol_cases (c : Char) :
    (Instruction.ofSymbol? c = none ∧ c ≠ '[' ∧ c ≠ ']') ∨
      (c = '[' ∧ Instruction.ofSymbol? c = some (.loopOpen 0)) ∨
      (c = ']' ∧ Instruction.ofSymbol? c = some (.loopClose 0)) ∨
      ∃ i, Instruction.ofSymbol? c = some i ∧ i.target? = none ∧ c ≠ '[' ∧ c ≠ ']' := by
  unfold Instruction.ofSymbol?
  split
  case h_7 => exact .inr (.inl ⟨rfl, rfl⟩)
  case h_8 => exact .inr (.inr (.inl ⟨rfl, rfl⟩))
  case h_9 hopen hclose => exact .inl ⟨rfl, hopen, hclose⟩
  all_goals exact .inr (.inr (.inr ⟨_, rfl, rfl, by decide, by decide⟩))

theorem read_plain {limit : Nat} {s : ParseState} {c : Char} {i : Instruction}
    (hc : Instruction.ofSymbol? c = some i) (hi : i.target? = none) :
    s.read limit c = .ok ⟨s.code.push i, s.pending, s.position.after c⟩ := by
  cases i <;> simp_all [ParseState.read, Except.map, Instruction.target?]

theorem read_comment {limit : Nat} {s : ParseState} {c : Char}
    (hc : Instruction.ofSymbol? c = none) :
    s.read limit c = .ok ⟨s.code, s.pending, s.position.after c⟩ := by
  simp [ParseState.read, Except.map, hc]

theorem read_open {limit : Nat} {s : ParseState} (room : s.pending.size < limit) :
    s.read limit '[' =
      .ok ⟨s.code.push (.loopOpen 0), s.pending.push (s.code.size, s.position),
        s.position.after '['⟩ := by
  have hroom : ¬limit ≤ s.pending.size := by omega
  simp [ParseState.read, Instruction.ofSymbol?, ParseState.openLoop, hroom, Except.map]

theorem read_open_refused {limit : Nat} {s : ParseState} (full : limit ≤ s.pending.size) :
    s.read limit '[' = .error ⟨.nestingTooDeep limit, s.code.size, s.position⟩ := by
  simp [ParseState.read, Instruction.ofSymbol?, ParseState.openLoop, full, Except.map]

theorem read_close {limit i : Nat} {s : ParseState} {position : Position}
    (top : s.pending.back? = some (i, position)) :
    s.read limit ']' =
      .ok ⟨(s.code.setIfInBounds i (.loopOpen (s.code.size + 1))).push (.loopClose (i + 1)),
        s.pending.pop, s.position.after ']'⟩ := by
  simp [ParseState.read, Instruction.ofSymbol?, ParseState.closeLoop, top, Except.map]

theorem read_close_refused {limit : Nat} {s : ParseState} (empty : s.pending.back? = none) :
    s.read limit ']' = .error ⟨.unmatchedClose, s.code.size, s.position⟩ := by
  simp [ParseState.read, Instruction.ofSymbol?, ParseState.closeLoop, empty, Except.map]

namespace Reading

variable {limit : Nat} {cs : List Char} {ks : List Nat} {s : ParseState}

/-- A character that is no bracket leaves the stack alone. -/
theorem plain (h : Reading cs ks s) {c : Char} (hopen : c ≠ '[') (hclose : c ≠ ']') :
    ∃ s', s.read limit c = .ok s' ∧ Reading (cs ++ [c]) ks s' := by
  have nested := Nested.comment h.nested hopen hclose
  have pending : s.pending.toList = (ks.map (entry (cs ++ [c]))).reverse := by
    rw [h.nested.map_entry_concat, h.pending]
  have position : s.position.after c = positionBehind (cs ++ [c]) := by
    rw [positionBehind_concat, h.position]
  rcases symbol_cases c with ⟨hc, -⟩ | ⟨rfl, -⟩ | ⟨rfl, -⟩ | ⟨i, hc, hi, -⟩
  · refine ⟨_, read_comment hc, nested, ?_, position, pending⟩
    rw [commandCount_concat, hc, h.size]
    simp
  · exact absurd rfl hopen
  · exact absurd rfl hclose
  · refine ⟨_, read_plain hc hi, nested, ?_, position, pending⟩
    rw [commandCount_concat, hc, Array.size_push, h.size]
    simp

/-- An open within the limit is pushed. -/
theorem opened (h : Reading cs ks s) (room : ks.length < limit) :
    ∃ s', s.read limit '[' = .ok s' ∧ Reading (cs ++ ['[']) (cs.length :: ks) s' := by
  rw [← h.size_pending] at room
  refine ⟨_, read_open room, .opened h.nested, ?_, ?_, ?_⟩
  · rw [commandCount_concat, Array.size_push, h.size]
    rfl
  · rw [positionBehind_concat, h.position]
  · have hlast : entry (cs ++ ['[']) cs.length = (s.code.size, s.position) := by
      simp [entry, h.size, h.position]
    rw [Array.toList_push, h.pending, List.map_cons, List.reverse_cons, hlast,
      h.nested.map_entry_concat]

private theorem opened_refused (h : Reading cs ks s) (full : limit ≤ ks.length) :
    s.read limit '[' = .error ⟨.nestingTooDeep limit, commandCount cs, positionBehind cs⟩ := by
  rw [← h.size_pending] at full
  rw [read_open_refused full, h.size, h.position]

/-- A close takes the innermost open off the stack. -/
theorem closed {k : Nat} (h : Reading cs (k :: ks) s) :
    ∃ s', s.read limit ']' = .ok s' ∧ Reading (cs ++ [']']) ks s' := by
  have hlist : s.pending.toList = (ks.map (entry cs)).reverse ++ [entry cs k] := by
    rw [h.pending, List.map_cons, List.reverse_cons]
  have htop : s.pending.back? = some (entry cs k) := by
    rw [← Array.getLast?_toList, hlist, List.getLast?_concat]
  refine ⟨_, read_close htop, .closed h.nested, ?_, ?_, ?_⟩
  · rw [commandCount_concat, Array.size_push, Array.size_setIfInBounds, h.size]
    rfl
  · rw [positionBehind_concat, h.position]
  · rw [Array.toList_pop, hlist, List.dropLast_concat]
    have hmap := h.nested.map_entry_concat ']'
    rw [List.map_cons, List.map_cons] at hmap
    rw [(List.cons.inj hmap).2]

private theorem closed_refused (h : Reading cs [] s) :
    s.read limit ']' = .error ⟨.unmatchedClose, commandCount cs, positionBehind cs⟩ := by
  have hempty : s.pending.back? = none := by
    rw [← Array.getLast?_toList, h.pending]
    rfl
  rw [read_close_refused hempty, h.size, h.position]

end Reading

private theorem offends_append {limit : Nat} {cs ds : List Char} {k : Nat} (h : k < cs.length) :
    Offends limit (cs ++ ds) k ↔ Offends limit cs k := by
  simp only [Offends, List.getElem?_append_left h, List.take_append_of_le_length h.le]

private theorem offends_length {limit : Nat} {cs ds : List Char} {c : Char} :
    Offends limit (cs ++ c :: ds) cs.length ↔
      (c = ']' ∧ balance cs = 0) ∨ (c = '[' ∧ (limit : Int) ≤ balance cs) := by
  simp [Offends]

/-- A text in which no bracket offends is read to its end. -/
theorem reading_of_no_offence {limit : Nat} {cs : List Char} (h : ∀ k, ¬Offends limit cs k) :
    ∃ ks s, cs.foldlM (ParseState.read limit) {} = .ok s ∧ Reading cs ks s := by
  induction cs using List.reverseRecOn with
  | nil => exact ⟨[], {}, rfl, reading_nil⟩
  | append_singleton cs c ih =>
    have hfront : ∀ k, ¬Offends limit cs k := by
      intro k hk
      have hlt : k < cs.length := by
        rcases hk with ⟨hk, -⟩ | ⟨hk, -⟩ <;> exact (List.getElem?_eq_some_iff.mp hk).1
      exact h k ((offends_append hlt).mpr hk)
    obtain ⟨ks, s, hs, hreading⟩ := ih hfront
    have hlast := mt offends_length.mpr (h cs.length)
    have hbal := hreading.nested.balance_eq
    have hnext : ∃ ks' s', s.read limit c = .ok s' ∧ Reading (cs ++ [c]) ks' s' := by
      by_cases hopen : c = '['
      · subst hopen
        have room : ks.length < limit := by
          by_contra hfull
          exact hlast (.inr ⟨rfl, by omega⟩)
        exact ⟨_, hreading.opened room⟩
      · by_cases hclose : c = ']'
        · subst hclose
          cases ks with
          | nil => exact absurd (.inl ⟨rfl, hbal⟩) hlast
          | cons k ks => exact ⟨_, hreading.closed⟩
        · exact ⟨_, hreading.plain hopen hclose⟩
    obtain ⟨ks', s', hread, hreading'⟩ := hnext
    refine ⟨ks', s', ?_, hreading'⟩
    rw [List.foldlM_append, hs]
    simp only [List.foldlM_cons, List.foldlM_nil, bind, Except.bind, pure, Except.pure, hread]

/-- The kind of error the bracket at `k` gives when it offends. -/
def offenceKind (limit : Nat) (cs : List Char) (k : Nat) : ParseErrorKind :=
  if cs[k]? = some ']' then .unmatchedClose else .nestingTooDeep limit

/-- The first bracket that offends ends the reading with its error. -/
theorem foldlM_read_of_offence {limit : Nat} {cs : List Char} {k : Nat}
    (first : IsLeast { k | Offends limit cs k } k) :
    cs.foldlM (ParseState.read limit) {} = .error (errorAt (offenceKind limit cs k) cs k) := by
  obtain ⟨hk, hleast⟩ := first
  have hlt : k < cs.length := by
    rcases hk with ⟨hk, -⟩ | ⟨hk, -⟩ <;> exact (List.getElem?_eq_some_iff.mp hk).1
  -- Split the text at the offence; in front of it nothing offends.
  obtain ⟨front, c, back, rfl, rfl⟩ : ∃ front c back, cs = front ++ c :: back ∧ k = front.length :=
    ⟨cs.take k, cs[k], cs.drop (k + 1), by simp, by simp [hlt.le]⟩
  have hfront : ∀ j, ¬Offends limit front j := by
    intro j hj
    have hlt : j < front.length := by
      rcases hj with ⟨hj, -⟩ | ⟨hj, -⟩ <;> exact (List.getElem?_eq_some_iff.mp hj).1
    have := hleast ((offends_append hlt).mpr hj)
    omega
  obtain ⟨ks, s, hs, hreading⟩ := reading_of_no_offence hfront
  have hbal := hreading.nested.balance_eq
  have hread : s.read limit c =
      .error (errorAt (offenceKind limit (front ++ c :: back) front.length)
        (front ++ c :: back) front.length) := by
    rcases offends_length.mp hk with ⟨rfl, hzero⟩ | ⟨rfl, hfull⟩
    · have hks : ks = [] := List.length_eq_zero_iff.mp (by omega)
      subst hks
      simpa [errorAt, offenceKind] using hreading.closed_refused
    · simpa [errorAt, offenceKind] using hreading.opened_refused (show limit ≤ ks.length by omega)
  rw [List.foldlM_append, hs]
  simp only [List.foldlM_cons, bind, Except.bind, hread]

/-- What parsing answers, said by bracket balances alone. A bracket offends if it is a close at balance
zero or an open at a balance of the limit or more. The first that offends is reported; if none does,
the leftmost open without a partner is; if there is none, the text is a program. -/
theorem parse_reports_first_defect (text : String) (limit : Nat) :
    (∀ k, IsLeast { k | Offends limit text.toList k } k →
      parse text limit =
        .error (errorAt (offenceKind limit text.toList k) text.toList k)) ∧
    ((∀ k, ¬Offends limit text.toList k) → 0 < balance text.toList →
      ∃ k, IsLeast { k | Unclosed text.toList k } k ∧
        parse text limit = .error (errorAt .unmatchedOpen text.toList k)) ∧
    ((∀ k, ¬Offends limit text.toList k) → ¬0 < balance text.toList →
      ∃ p, parse text limit = .ok p) := by
  refine ⟨?_, ?_, ?_⟩
  · intro k first
    simp only [parse, foldlM_read_of_offence first, bind, Except.bind]
  · intro clean positive
    obtain ⟨ks, s, hs, hreading⟩ := reading_of_no_offence clean
    have hbal := hreading.nested.balance_eq
    -- The bottom of the stack is the last of `ks`.
    obtain ⟨inner, k, rfl⟩ : ∃ inner k, ks = inner ++ [k] := by
      have hne : ks ≠ [] := by
        rintro rfl
        simp at hbal
        omega
      exact ⟨ks.dropLast, ks.getLast hne, (List.dropLast_concat_getLast hne).symm⟩
    have hbottom : s.pending[0]? = some (entry text.toList k) := by
      rw [← Array.getElem?_toList, hreading.pending]
      simp
    refine ⟨k, hreading.nested.isLeast, ?_⟩
    simp only [parse, hs, bind, Except.bind, ParseState.finish, hbottom]
    rfl
  · intro clean even
    obtain ⟨ks, s, hs, hreading⟩ := reading_of_no_offence clean
    have hks : ks = [] := List.length_eq_zero_iff.mp (by have := hreading.nested.balance_eq; omega)
    have hbottom : s.pending[0]? = none := by
      rw [← Array.getElem?_toList, hreading.pending, hks]
      rfl
    refine ⟨⟨s.code⟩, ?_⟩
    simp only [parse, hs, bind, Except.bind, ParseState.finish, hbottom]

/-- The second close of a text over two lines is the first bracket to offend. -/
theorem parse_reports_second_close :
    IsLeast { k | Offends 2 "[\n é+]]".toList k } 6 ∧
      parse "[\n é+]]" 2 = .error ⟨.unmatchedClose, 3, ⟨2, 5⟩⟩ := by
  have first : IsLeast { k | Offends 2 "[\n é+]]".toList k } 6 := by
    refine ⟨.inl ⟨by decide, by decide⟩, ?_⟩
    intro k hk
    by_contra hlt
    have hsmall : k < 6 := by omega
    revert hk
    simp only [Set.mem_ofPred_eq, Offends]
    interval_cases k <;> decide
  exact ⟨first, (parse_reports_first_defect _ _).1 6 first⟩

end TapeLang.Source
