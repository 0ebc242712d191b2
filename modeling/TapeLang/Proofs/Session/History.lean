import TapeLang.Session
import TapeLang.Proofs.Native.CodeSize
import TapeLang.Proofs.Native.Refinement
import Mathlib.Logic.Relation

/-!
# Runs do not depend on history

Whatever happened to a session, interpreted or compiled, its next run is a run of the interpreter on a
cleared tape and one flush behind it. Every step may be taken on another platform.
-/

namespace TapeLang.Session

open Native

/-- A run of the session calls compiled code only where the platform's host keeps to the convention. -/
def Hosted (platform : Platform) (s : Session) : Prop :=
  ∀ c ∈ s.compiled, platform.host.Conforms c.code s.tape.reset

/-- One step of a session next to a file tree. A run that does not end is no step. -/
inductive Step : Session × FileTree → Session × FileTree → Prop where
  | run {platform : Platform} {s s' : Session} {t : FileTree} {fuel : Nat} {input input' : Input}
      {output output' : Output} {e : Ending} (hosted : s.Hosted platform)
      (ended : s.run platform fuel input output = some (.ended e s' input' output')) :
      Step (s, t) (s', t)
  | compile {platform : Platform} {s s' : Session} {t : FileTree}
      (compiled : s.compile platform = .ok s') : Step (s, t) (s', t)
  | refuse {platform : Platform} {s : Session} {t : FileTree} {r : Refusal SessionError}
      (refused : s.compile platform = .error r) : Step (s, t) (s, t)
  | emit (s : Session) (t : FileTree) (name path : String) :
      Step (s, t) (s, (s.emit t name path).1)

/-- A run of the session ends so, with this tape and these channels. -/
def Ends (platform : Platform) (s : Session) (input : Input) (output : Output) (e : Ending)
    (tape : Tape) (input' : Input) (output' : Output) : Prop :=
  ∃ fuel s', s.run platform fuel input output = some (.ended e s' input' output') ∧ s'.tape = tape

/-- The output is flushed once, behind the last write of a run that ended in `st`. What went wrong in the
run is reported first, and a failure to flush only if nothing did. -/
structure FlushedOnce (output : Output) (ending : Ending) (st : Interpreter.State) (e : Ending)
    (output' : Output) : Prop where
  unflushed : st.output.flushes = output.flushes
  flushed : output' = st.output.flush.2
  count : output'.flushes = output.flushes + 1
  fault_first : ending ≠ .finished → e = ending
  flush_second : ∀ f, ending = .finished → st.output.flush.1 = .error f → e = .faulted (.channel f)
  finished : ending = .finished → st.output.flush.1 = .ok () → e = .finished

theorem flushedOnce_iff {output output' : Output} {ending e : Ending} {st : Interpreter.State}
    (unflushed : st.output.flushes = output.flushes) :
    FlushedOnce output ending st e output' ↔
      e = settle ending st.output.flush.1 ∧ output' = st.output.flush.2 := by
  constructor
  · rintro ⟨-, rfl, -, fault_first, flush_second, finished⟩
    refine ⟨?_, rfl⟩
    cases ending with
    | finished =>
      cases hflush : st.output.flush.1 with
      | error f => exact flush_second f rfl hflush
      | ok u => exact finished rfl hflush
    | faulted f => exact fault_first (by simp)
    | noCell => exact fault_first (by simp)
  · rintro ⟨rfl, rfl⟩
    refine ⟨unflushed, rfl, congrArg (· + 1) unflushed, ?_, ?_, ?_⟩
    · intro hne
      cases ending with
      | finished => exact absurd rfl hne
      | faulted f => rfl
      | noCell => rfl
    · rintro f rfl hflush
      rw [hflush]
      rfl
    · rintro rfl hflush
      rw [hflush]
      rfl

/-! New sessions. -/

theorem new_eq_ok {platform : Platform} {text : String} {config : Config} {s : Session}
    (h : new platform text config = .ok s) :
    ∃ program, Source.parse text config.depth = .ok program ∧ 0 < config.capacity ∧
      config.capacity < 2 ^ 63 ∧
      s = ⟨config, program, Tape.new config.capacity, none⟩ := by
  unfold new at h
  split at h
  next => cases h
  next hconfig =>
    have hcapacity : config.capacity ≠ 0 := by
      intro hzero
      simp [Config.error?, hzero] at hconfig
    split at h
    next => cases h
    next program hparse =>
      unfold Tape.allocate? at h
      split at h
      next => cases h
      next tape htape =>
        obtain ⟨hlt, hnew⟩ := Option.ite_none_right_eq_some.mp htape
        obtain rfl := Option.some.inj hnew
        obtain rfl := Except.ok.inj h
        exact ⟨program, hparse, Nat.pos_of_ne_zero hcapacity, hlt.1, rfl⟩

theorem compile_eq_ok {platform : Platform} {s s' : Session} (h : s.compile platform = .ok s') :
    s' = s ∨ ∃ c, CompiledProgram.compile s.program s.config.policy = .ok c ∧
      s' = { s with compiled := some c } := by
  unfold compile at h
  split at h
  next => exact .inl (Except.ok.inj h).symm
  next =>
    split at h
    next => cases h
    next c hcompile =>
      split at h
      next => cases h
      next => exact .inr ⟨c, hcompile, (Except.ok.inj h).symm⟩

/-- A session that runs a program of a text. If it is compiled, its code is that of the program. -/
structure Ready (config : Config) (program : Program) (s : Session) : Prop where
  config_eq : s.config = config
  program_eq : s.program = program
  canonical : program.Canonical config.depth
  cells : 0 < config.capacity
  allocated : config.capacity < 2 ^ 63
  capacity : s.tape.capacity = config.capacity
  code : ∀ c ∈ s.compiled, CompiledProgram.compile program config.policy = .ok c

theorem ready_of_new {platform : Platform} {text : String} {config : Config} {s : Session}
    (h : new platform text config = .ok s) : Ready config s.program s := by
  obtain ⟨program, hparse, hcells, hallocated, rfl⟩ := new_eq_ok h
  obtain ⟨b, spells, deep, rfl⟩ := Source.spells_of_parse hparse
  exact ⟨rfl, rfl, Source.canonical_program spells deep, hcells, hallocated,
    Tape.capacity_new config.capacity, by simp⟩

namespace Ready

variable {config : Config} {program : Program} {s s' : Session} {platform : Platform}

theorem targets (h : Ready config program s) :
    ∀ i ∈ program.instructions.toList, TargetsWithin program.size i :=
  targetsWithin_of_paired (Program.isWellFormed_iff_paired.mp h.canonical.wellFormed)

theorem reset_eq (h : Ready config program s) : s.tape.reset = Tape.new config.capacity := by
  rw [Tape.reset, h.capacity]

/-- Compiled code runs like the interpreter on a cleared tape. -/
theorem invoke_iff (h : Ready config program s) (hosted : s.Hosted platform) {c : CompiledProgram}
    (hc : s.compiled = some c) (input : Input) (output : Output) (r : CallEnding) :
    (∃ fuel, c.invoke platform.host fuel (Tape.new config.capacity) input output = some r) ↔
      ∃ e st, (∃ fuel, Interpreter.run fuel program config.policy (Tape.new config.capacity) input
          output = some (e, st)) ∧ r = .ended e st.tape st.input st.output := by
  have conforms := hosted c hc
  rw [h.reset_eq] at conforms
  obtain ⟨code, hgenerate, hcode⟩ := Except.bind_eq_ok.mp (h.code c hc)
  obtain rfl := Except.ok.inj hcode
  have hsize : program.size ≤ wordLimit := by
    have hle := size_le_codeSize h.canonical.unit h.targets config.policy
    rw [← length_bytes_of_generate HostCalls.tidy h.targets hgenerate] at hle
    exact Nat.le_trans hle conforms.sound.code_fits
  have hcapacity := Tape.capacity_new config.capacity
  refine CompiledProgram.invoke_iff_of_generate h.targets hsize hgenerate conforms ?_ ?_ input output r
  · show 0 < (Tape.new config.capacity).capacity
    rw [hcapacity]
    exact h.cells
  · rw [hcapacity]
    exact h.allocated

/-- Interpreted or compiled, the program runs as in the interpreter on a cleared tape. -/
theorem execute_iff (h : Ready config program s) (hosted : s.Hosted platform) (input : Input)
    (output : Output) (r : CallEnding) :
    (∃ fuel, s.execute platform fuel input output = some r) ↔
      ∃ e st, (∃ fuel, Interpreter.run fuel program config.policy (Tape.new config.capacity) input
          output = some (e, st)) ∧ r = .ended e st.tape st.input st.output := by
  cases hc : s.compiled with
  | some c =>
    rw [← h.invoke_iff hosted hc]
    simp only [execute, hc, h.reset_eq]
  | none =>
    simp only [execute, hc, h.reset_eq, h.config_eq, h.program_eq]
    constructor
    · rintro ⟨fuel, hrun⟩
      split at hrun
      next e st hst => exact ⟨e, st, ⟨fuel, hst⟩, (Option.some.inj hrun).symm⟩
      next => cases hrun
    · rintro ⟨e, st, ⟨fuel, hst⟩, rfl⟩
      exact ⟨fuel, by rw [hst]⟩

/-- A run of a session is a run of the interpreter on a cleared tape and a flush. -/
theorem run_iff (h : Ready config program s) (hosted : s.Hosted platform) (input : Input)
    (output : Output) (r : SessionRun) :
    (∃ fuel, s.run platform fuel input output = some r) ↔
      ∃ e st, (∃ fuel, Interpreter.run fuel program config.policy (Tape.new config.capacity) input
          output = some (e, st)) ∧
        r = .ended (settle e st.output.flush.1) { s with tape := st.tape } st.input
          st.output.flush.2 := by
  constructor
  · rintro ⟨fuel, hrun⟩
    cases hexecute : s.execute platform fuel input output with
    | none => simp [run, hexecute] at hrun
    | some ending =>
      obtain ⟨e, st, hst, rfl⟩ := (h.execute_iff hosted input output ending).mp ⟨fuel, hexecute⟩
      refine ⟨e, st, hst, ?_⟩
      simpa [run, hexecute] using hrun.symm
  · rintro ⟨e, st, hst, rfl⟩
    obtain ⟨fuel, hexecute⟩ := (h.execute_iff hosted input output _).mpr ⟨e, st, hst, rfl⟩
    exact ⟨fuel, by simp only [run, hexecute]⟩

theorem ends_iff (h : Ready config program s) (hosted : s.Hosted platform) (input input' : Input)
    (output output' : Output) (e : Ending) (tape : Tape) :
    s.Ends platform input output e tape input' output' ↔
      ∃ ending st, (∃ fuel, Interpreter.run fuel program config.policy (Tape.new config.capacity)
          input output = some (ending, st)) ∧ tape = st.tape ∧ input' = st.input ∧
        FlushedOnce output ending st e output' := by
  constructor
  · rintro ⟨fuel, s', hrun, rfl⟩
    obtain ⟨ending, st, hst, hr⟩ := (h.run_iff hosted input output _).mp ⟨fuel, hrun⟩
    obtain ⟨rfl, rfl, rfl, rfl⟩ := SessionRun.ended.inj hr
    obtain ⟨fuel', hfuel⟩ := hst
    exact ⟨ending, st, ⟨fuel', hfuel⟩, rfl, rfl,
      (flushedOnce_iff (Interpreter.kept_runFrom hfuel).flushes).mpr ⟨rfl, rfl⟩⟩
  · rintro ⟨ending, st, hst, rfl, rfl, hflushed⟩
    obtain ⟨rfl, rfl⟩ := (flushedOnce_iff hflushed.unflushed).mp hflushed
    obtain ⟨fuel, hrun⟩ := (h.run_iff hosted input output _).mpr ⟨ending, st, hst, rfl⟩
    exact ⟨fuel, _, hrun, rfl⟩

/-! Steps. -/

theorem run (h : Ready config program s) (hosted : s.Hosted platform) {fuel : Nat}
    {input input' : Input} {output output' : Output} {e : Ending}
    (ended : s.run platform fuel input output = some (.ended e s' input' output')) :
    Ready config program s' := by
  obtain ⟨ending, st, ⟨fuel', hst⟩, hr⟩ := (h.run_iff hosted input output _).mp ⟨fuel, ended⟩
  obtain ⟨-, rfl, -, -⟩ := SessionRun.ended.inj hr
  have hcapacity : st.tape.capacity = config.capacity :=
    (Interpreter.kept_runFrom hst).capacity.trans (Tape.capacity_new config.capacity)
  exact ⟨h.config_eq, h.program_eq, h.canonical, h.cells, h.allocated, hcapacity, h.code⟩

theorem compile (h : Ready config program s) (compiled : s.compile platform = .ok s') :
    Ready config program s' := by
  rcases compile_eq_ok compiled with rfl | ⟨c, hcompile, rfl⟩
  · exact h
  · rw [h.config_eq, h.program_eq] at hcompile
    refine ⟨h.config_eq, h.program_eq, h.canonical, h.cells, h.allocated, h.capacity, ?_⟩
    rintro c' hc'
    obtain rfl := Option.some.inj hc'
    exact hcompile

theorem compile_ok (h : Ready config program s)
    (small : codeSize program HostCalls.environment config.policy ≤ 2 ^ 31)
    (mapped : platform.mapFailure? (codeSize program HostCalls.environment config.policy) = none) :
    ∃ s', s.compile platform = .ok s' ∧ s'.compiled.isSome = true := by
  cases hc : s.compiled with
  | some c => exact ⟨s, by simp only [Session.compile, hc], by rw [hc]; rfl⟩
  | none =>
    obtain ⟨code, hgenerate⟩ := generate_ok HostCalls.tidy h.targets small
    have hcompile := CompiledProgram.compile_eq hgenerate
    rw [← length_bytes_of_generate HostCalls.tidy h.targets hgenerate] at mapped
    refine ⟨{ s with compiled := some ⟨code, config.policy⟩ }, ?_, rfl⟩
    simp only [Session.compile, hc, h.config_eq, h.program_eq, hcompile, mapped]

/-- What one step keeps, every history keeps. -/
theorem history (h : Ready config program s) {t t' : FileTree}
    (reach : Relation.ReflTransGen Step (s, t) (s', t')) : Ready config program s' := by
  suffices ∀ x, Relation.ReflTransGen Step (s, t) x → Ready config program x.1 from this _ reach
  intro x reach
  induction reach with
  | refl => exact h
  | tail _ step ih =>
    cases step with
    | run hosted ended => exact ih.run hosted ended
    | compile compiled => exact ih.compile compiled
    | refuse refused => exact ih
    | emit s t name path => exact ih

end Ready

/-- Nothing is asked of a host as long as nothing is compiled. -/
theorem hosted_of_new {platform here : Platform} {text : String} {config : Config} {s : Session}
    (h : new platform text config = .ok s) : s.Hosted here := by
  obtain ⟨program, -, -, -, rfl⟩ := new_eq_ok h
  exact nofun

/-- Whatever runs, compilations and emitted modules came before, and on whatever platforms, a run gives
what it gives on the session as it was made: the same ending, cells and pointer, with the channels in the
same state. Where the host of compiled code keeps to the convention it never crashes. It flushes once.
Compiling and emitting change neither tape nor program nor settings, and code below 2 GiB can be compiled
wherever it can be mapped. -/
theorem ends_iff_of_history {platform : Platform} {text : String} {config : Config}
    {fresh s : Session} {t t' : FileTree} (made : new platform text config = .ok fresh)
    (history : Relation.ReflTransGen Step (fresh, t) (s, t')) :
    (∀ here input output, s.Hosted here →
      (∀ there e tape input' output', s.Ends here input output e tape input' output' ↔
        fresh.Ends there input output e tape input' output') ∧
      (∀ fuel, s.run here fuel input output ≠ some .crashed) ∧
      ∀ e tape input' output', s.Ends here input output e tape input' output' →
        ∃ ending st, (∃ fuel, Interpreter.run fuel fresh.program config.policy
            (Tape.new config.capacity) input output = some (ending, st)) ∧
          tape = st.tape ∧ input' = st.input ∧ FlushedOnce output ending st e output') ∧
    s.program = fresh.program ∧ s.config = config ∧
    (∀ here s', s.compile here = .ok s' →
      s'.tape = s.tape ∧ s'.program = s.program ∧ s'.config = s.config) ∧
    (∀ tree name path, s.emit tree name path = fresh.emit tree name path) ∧
    (∀ here : Platform, codeSize fresh.program HostCalls.environment config.policy ≤ 2 ^ 31 →
      here.mapFailure? (codeSize fresh.program HostCalls.environment config.policy) = none →
        ∃ s', s.compile here = .ok s' ∧ s'.compiled.isSome = true) := by
  have hfresh := ready_of_new made
  have hs := hfresh.history history
  refine ⟨fun here input output hosted => ⟨?_, ?_, ?_⟩, hs.program_eq, hs.config_eq, ?_, ?_,
    fun _ => hs.compile_ok⟩
  · intro there e tape input' output'
    rw [hs.ends_iff hosted, hfresh.ends_iff (hosted_of_new made)]
  · intro fuel hcrash
    obtain ⟨e, st, -, hr⟩ := (hs.run_iff hosted input output _).mp ⟨fuel, hcrash⟩
    cases hr
  · intro e tape input' output' hends
    exact (hs.ends_iff hosted input input' output output' e tape).mp hends
  · intro here s' compiled
    rcases compile_eq_ok compiled with rfl | ⟨c, -, rfl⟩
    · exact ⟨rfl, rfl, rfl⟩
    · exact ⟨rfl, rfl, rfl⟩
  · intro tree name path
    simp only [emit, hs.program_eq, hs.config_eq, hfresh.config_eq]

/-- A platform with memory for everything and a host that leaves all it may in registers and memory. -/
def untidyPlatform : Platform where
  allocates _ := true
  mapFailure? _ := none
  host := untidyHost

private theorem hosted_untidyPlatform {s : Session} (hcapacity : s.tape.capacity ≤ 2 ^ 40)
    (small : ∀ c ∈ s.compiled, c.code.bytes.length ≤ 2 ^ 31) : s.Hosted untidyPlatform := by
  intro c hc
  refine untidyHost_conforms (small c hc) ?_ (by decide : 0 < UInt64.size)
  rw [Tape.reset, Tape.capacity_new]
  exact hcapacity

/-- A session whose first run left the tape, and that was compiled and emitted since. The next run leaves
the tape at the same place, and that the output cannot be flushed either is not reported. -/
theorem ends_iff_of_history_refused :
    ∃ fresh s tree, new untidyPlatform ",[.,]<" { capacity := 2 } = .ok fresh ∧
      Relation.ReflTransGen Step (fresh, .empty) (s, tree) ∧ s.compiled.isSome = true ∧
      s.Hosted untidyPlatform ∧
      s.Ends untidyPlatform (.ofBytes [7, 8]) { flushRule := .fails (.ofErrno 28) }
        (.faulted (.outOfTape 5 0)) ⟨#[0, 0], 0⟩ { calls := 3 }
        { flushRule := .fails (.ofErrno 28), written := #[7, 8], calls := 2, flushes := 1 } := by
  let program : Program := ⟨#[.input, .loopOpen 5, .output, .input, .loopClose 2, .move (-1)]⟩
  let fresh : Session := ⟨{ capacity := 2 }, program, Tape.new 2, none⟩
  have made : new untidyPlatform ",[.,]<" { capacity := 2 } = .ok fresh := by decide +kernel
  have small : codeSize program HostCalls.environment .zero ≤ 2 ^ 31 := by decide +kernel
  have hrun : fresh.run untidyPlatform 20 (.ofBytes [7, 8]) { flushRule := .fails (.ofErrno 28) } =
      some (.ended (.faulted (.outOfTape 5 0)) { fresh with tape := ⟨#[0, 0], 0⟩ } { calls := 3 }
        { flushRule := .fails (.ofErrno 28), written := #[7, 8], calls := 2, flushes := 1 }) := by
    decide +kernel
  have once : Relation.ReflTransGen Step (fresh, .empty) ({ fresh with tape := ⟨#[0, 0], 0⟩ }, .empty) :=
    .single (.run (hosted_of_new made) hrun)
  obtain ⟨-, -, -, -, -, hcompile⟩ := ends_iff_of_history made once
  obtain ⟨s, compiled, hsome⟩ := hcompile untidyPlatform small rfl
  have history := (once.tail (.compile compiled)).tail (.emit s .empty "step back" "module")
  have hosted : s.Hosted untidyPlatform := by
    rcases compile_eq_ok compiled with rfl | ⟨c, hc, rfl⟩
    · cases hsome
    · refine hosted_untidyPlatform (by decide : 2 ≤ 2 ^ 40) fun c' hc' => ?_
      obtain rfl := Option.some.inj hc'
      obtain ⟨code, hgenerate, hcode⟩ := Except.bind_eq_ok.mp hc
      obtain rfl := Except.ok.inj hcode
      rw [length_bytes_of_generate HostCalls.tidy (ready_of_new made).targets hgenerate]
      exact small
  obtain ⟨hruns, -⟩ := ends_iff_of_history made history
  exact ⟨fresh, s, _, made, history, hsome, hosted,
    ((hruns untidyPlatform _ _ hosted).1 untidyPlatform _ _ _ _).mpr ⟨20, _, hrun, rfl⟩⟩

end TapeLang.Session
