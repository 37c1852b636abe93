import ValueMachine.Eval.Spans
import ValueMachine.Proofs.Eval.Accounts

/-! Spans are paired.

Several runs may be watched by one sink. Each of the spans that it has open is told apart by
its number, and whatever span was opened is open still or was left (`SpanSink.Sound`). A run
that tells of its ends and its calls finds the sink empty after its start and leaves it
empty. In between its calls take turns (`Opens`): every exit finds open the span that was
opened for the frame that returns, with nothing inside it (`Opens.enterOf`). -/
namespace ValueMachine

/-! ### Sinks -/

def LogLine.enters (name : SpanName) : LogLine → Bool
  | .enter _ n _ => n = name
  | _ => false

def LogLine.leaves (name : SpanName) : LogLine → Bool
  | .exit n => n = name
  | _ => false

namespace SpanSink

/-- The spans that are open, the innermost first. -/
def openSpans (sink : SpanSink) : List Span := sink.scopes ++ sink.run.toList

/-- How often the log enters a span of the name. -/
def entered (sink : SpanSink) (name : SpanName) : Nat := sink.log.toList.countP (·.enters name)

/-- How often the log leaves a span of the name. -/
def left (sink : SpanSink) (name : SpanName) : Nat := sink.log.toList.countP (·.leaves name)

/-- The open spans differ in their numbers, and every span that was entered is open still or
was left. -/
structure Sound (sink : SpanSink) : Prop where
  scopes : ∀ span ∈ sink.scopes, span.name ≠ .run
  run : ∀ span ∈ sink.run, span.name = .run
  numbered : (sink.opened :: sink.openSpans.map Span.number).Pairwise (· > ·)
  accounted : ∀ name,
    sink.entered name = sink.left name + sink.openSpans.countP (·.name = name)

variable {sink : SpanSink} (s : Store)

@[simp] theorem entered_write (line : LogLine) (name : SpanName) :
    (sink.write line).entered name = sink.entered name + if line.enters name then 1 else 0 := by
  simp [write, entered, List.countP_cons]

@[simp] theorem left_write (line : LogLine) (name : SpanName) :
    (sink.write line).left name = sink.left name + if line.leaves name then 1 else 0 := by
  simp [write, left, List.countP_cons]

theorem counts_of_log {sink' : SpanSink} (h : sink'.log = sink.log) (name : SpanName) :
    sink'.entered name = sink.entered name ∧ sink'.left name = sink.left name := by
  unfold entered left
  rw [h]
  exact ⟨rfl, rfl⟩

namespace Sound

theorem start (mask : TraceMask) : Sound { new with mask } where
  scopes := by simp [new]
  run := by simp [new]
  numbered := by simp [new, openSpans]
  accounted := by simp [new, openSpans, entered, left]

theorem event (h : sink.Sound) (level : LogLevel) (fields : List (String × LogField)) :
    (sink.write (.event level fields)).Sound where
  scopes := h.scopes
  run := h.run
  numbered := h.numbered
  accounted name := by
    simp only [entered_write, left_write, LogLine.enters, LogLine.leaves]
    exact h.accounted name

/-- A span is opened inside those that are open, with a number of its own. -/
theorem enter {sink' : SpanSink} {name : SpanName} (h : sink.Sound) (level : LogLevel)
    (fields : List (String × LogField))
    (scopes : ∀ span ∈ sink'.scopes, span.name ≠ .run) (run : ∀ span ∈ sink'.run, span.name = .run)
    (hopened : sink'.opened = sink.opened + 1)
    (hspans : sink'.openSpans = sink.next name :: sink.openSpans) (hlog : sink'.log = sink.log) :
    (sink'.write (.enter level name fields)).Sound where
  scopes := scopes
  run := run
  numbered := by
    show (sink'.opened :: sink'.openSpans.map Span.number).Pairwise (· > ·)
    have hnumbered := h.numbered
    rw [hopened, hspans, List.map_cons, List.pairwise_cons]
    refine ⟨fun n hn => ?_, hnumbered⟩
    obtain rfl | hn := List.mem_cons.mp hn
    · exact Nat.lt_succ_self sink.opened
    · exact Nat.lt_succ_of_lt (List.rel_of_pairwise_cons hnumbered hn)
  accounted other := by
    have hother := h.accounted other
    have hspans' : (sink'.write (.enter level name fields)).openSpans =
        sink.next name :: sink.openSpans := hspans
    obtain ⟨hentered, hleft⟩ := counts_of_log hlog other
    rw [entered_write, left_write, hspans', List.countP_cons, hentered, hleft, hother]
    by_cases hname : name = other
    · simp [LogLine.enters, LogLine.leaves, next, hname]
      omega
    · simp [LogLine.enters, LogLine.leaves, next, hname]

/-- Some span is left. -/
theorem exit {sink' : SpanSink} (h : sink.Sound) (span : Span) (inner outer : List Span)
    (scopes : ∀ span ∈ sink'.scopes, span.name ≠ .run) (run : ∀ span ∈ sink'.run, span.name = .run)
    (hopened : sink'.opened = sink.opened) (hspans : sink.openSpans = inner ++ span :: outer)
    (hspans' : sink'.openSpans = inner ++ outer) (hlog : sink'.log = sink.log) :
    (sink'.write (.exit span.name)).Sound where
  scopes := scopes
  run := run
  numbered := by
    show (sink'.opened :: sink'.openSpans.map Span.number).Pairwise (· > ·)
    have hnumbered := h.numbered
    rw [hspans] at hnumbered
    rw [hopened, hspans']
    exact hnumbered.sublist
      (((List.sublist_cons_self span outer).append_left inner).map Span.number |>.cons_cons _)
  accounted name := by
    have hname := h.accounted name
    have hspans'' : (sink'.write (.exit span.name)).openSpans = inner ++ outer := hspans'
    obtain ⟨hentered, hleft⟩ := counts_of_log hlog name
    rw [hspans, List.countP_append, List.countP_cons] at hname
    rw [entered_write, left_write, hspans'', List.countP_append, hentered, hleft, hname]
    simp [LogLine.enters, LogLine.leaves]
    omega

theorem openScope (h : sink.Sound) {name : SpanName} (hname : name ≠ .run)
    (fields : List (String × LogField)) : (sink.openScope name fields).Sound :=
  h.enter .trace fields (List.forall_mem_cons.mpr ⟨hname, h.scopes⟩) h.run rfl rfl rfl

theorem openRun (h : sink.Sound) (hempty : sink.openSpans = [])
    (fields : List (String × LogField)) : (sink.openRun fields).Sound := by
  obtain ⟨hscopes, -⟩ := List.append_eq_nil_iff.mp hempty
  refine h.enter .debug fields h.scopes (fun span hspan => ?_) rfl ?_ rfl
  · obtain rfl := Option.mem_some_iff.mp hspan
    rfl
  · rw [hempty, openSpans, hscopes]
    rfl

theorem closeScope (h : sink.Sound) : sink.closeScope.Sound := by
  unfold SpanSink.closeScope
  cases hscopes : sink.scopes with
  | nil => exact h
  | cons span rest =>
    have hrest := h.scopes
    rw [hscopes] at hrest
    refine h.exit span [] (rest ++ sink.run.toList)
      (List.forall_mem_cons.mp hrest).2 h.run rfl ?_ rfl rfl
    rw [openSpans, hscopes]
    rfl

theorem closeRun (h : sink.Sound) : sink.closeRun.Sound := by
  unfold SpanSink.closeRun
  cases hrun : sink.run with
  | none => exact h
  | some span =>
    refine h.exit span sink.scopes [] h.scopes ?_ rfl ?_ rfl rfl
    · simp
    · rw [openSpans, hrun]
      rfl

theorem closeScopes (h : sink.Sound) : sink.closeScopes.Sound := by
  generalize hscopes : sink.scopes = scopes
  induction scopes generalizing sink with
  | nil =>
    have hsame : sink.closeScopes = sink := by
      unfold SpanSink.closeScopes
      rw [hscopes, List.foldl_nil, ← hscopes]
    rw [hsame]
    exact h
  | cons span rest ih =>
    have hstep : sink.closeScopes = sink.closeScope.closeScopes := by
      simp [SpanSink.closeScopes, SpanSink.closeScope, hscopes, write]
    rw [hstep]
    refine ih h.closeScope ?_
    simp [SpanSink.closeScope, hscopes, write]

end Sound

theorem Sound.distinct (h : sink.Sound) : (sink.openSpans.map Span.number).Nodup :=
  h.numbered.of_cons.imp Nat.ne_of_gt

theorem openSpans_closeRun (h : sink.scopes = []) : sink.closeRun.openSpans = [] := by
  unfold closeRun
  cases hrun : sink.run with
  | none => simp [openSpans, h, hrun]
  | some span => simp [openSpans, h, write]

theorem spanOf_ne_run (scope : Scope) (depth : Nat) : (spanOf scope depth).1 ≠ .run := by
  cases scope <;> exact nofun

/-- A sink stays sound whatever it is told. -/
theorem Sound.receive (h : sink.Sound) (e : TraceEvent) : (receive s sink e).Sound := by
  cases e with
  | runStart entry arg =>
    exact h.closeScopes.closeRun.openRun (openSpans_closeRun rfl) _
  | instr func place opcode => exact h.event _ _
  | enter scope depth => exact h.openScope (spanOf_ne_run scope depth) _
  | exit scope depth => exact h.closeScope
  | runOk outcome => exact (h.closeScopes.event _ _).closeRun
  | runFault fault error => exact (h.closeScopes.event _ _).closeRun
  | runFatal => exact (h.closeScopes.event _ _).closeRun

/-- The sink after some events of an evaluation that ends with the store. -/
def after (sink : SpanSink) (events : List TraceEvent) : SpanSink := events.foldl (receive s) sink

theorem after_snoc (events : List TraceEvent) (e : TraceEvent) :
    sink.after s (events ++ [e]) = receive s (sink.after s events) e := by
  rw [after, List.foldl_append]
  rfl

theorem Sound.after (h : sink.Sound) (events : List TraceEvent) : (sink.after s events).Sound := by
  induction events using List.reverseRecOn with
  | nil => exact h
  | append_singleton events e ih =>
    rw [after_snoc]
    exact ih.receive s e

theorem receive_exit (scope : Scope) (depth : Nat) :
    receive s sink (.exit scope depth) = sink.closeScope := rfl

theorem openScopes_closeScope : sink.closeScope.openScopes = sink.openScopes - 1 := by
  unfold closeScope openScopes
  cases hscopes : sink.scopes with
  | nil => rw [hscopes]; rfl
  | cons span rest => rfl

theorem scopes_closeScope {span : Span} {rest : List Span} (h : sink.scopes = span :: rest) :
    sink.closeScope.scopes = rest := by
  unfold closeScope
  rw [h]
  rfl

theorem run_closeScope : sink.closeScope.run = sink.run := by
  unfold closeScope
  cases sink.scopes <;> rfl

/-- A run starts with its span and no other. -/
theorem openSpans_started (entry arg : Addr) :
    (receive s sink (.runStart entry arg)).scopes = [] ∧
      (receive s sink (.runStart entry arg)).run = some (sink.next .run) := by
  show (sink.closeScopes.closeRun.openRun _).scopes = [] ∧
    (sink.closeScopes.closeRun.openRun _).run = some (sink.next .run)
  unfold closeRun
  cases hrun : sink.closeScopes.run with
  | none => exact ⟨rfl, rfl⟩
  | some span => exact ⟨rfl, rfl⟩

end SpanSink

/-! ### Turns -/

/-- An event as one of a run with open scopes: an instruction leaves them as they are, a scope
is entered inside them, and the one that is left is the innermost. -/
inductive Turn : List Scope → TraceEvent → List Scope → Prop
  | instr (opened : List Scope) (func : FuncId) (place : Nat) (op : Opcode) :
    Turn opened (.instr func place op) opened
  | enter (scope : Scope) (outer : List Scope) :
    Turn outer (.enter scope (outer.length + 1)) (scope :: outer)
  | exit (scope : Scope) (outer : List Scope) :
    Turn (scope :: outer) (.exit scope (outer.length + 1)) outer

/-- With all of these events told, these scopes are open. -/
inductive Opens : List TraceEvent → List Scope → Prop
  | nil : Opens [] []
  | snoc {told : List TraceEvent} {opened left : List Scope} {e : TraceEvent}
    (h : Opens told opened) (hturn : Turn opened e left) : Opens (told ++ [e]) left

/-- The event tells of nothing outside the scope at the depth, nor of that scope itself. -/
def TraceEvent.Within (depth : Nat) : TraceEvent → Prop
  | .instr _ _ _ => True
  | .enter _ d | .exit _ d => depth < d
  | _ => False

theorem TraceEvent.Within.mono {d d' : Nat} (h : d ≤ d') {e : TraceEvent} (he : e.Within d') :
    e.Within d := by
  cases e with
  | instr => trivial
  | enter scope depth => exact h.trans_lt he
  | exit scope depth => exact h.trans_lt he
  | _ => cases he

namespace Opens

variable {told rest events : List TraceEvent} {opened left outer : List Scope} {e : TraceEvent}
  {scope : Scope} {limit : Nat}

theorem of_nests (h : Opens told opened)
    (hnests : Nests limit opened (events.filter fun e => !e.isInstr) left) :
    Opens (told ++ events) left := by
  induction events generalizing told opened with
  | nil =>
    cases hnests
    rwa [List.append_nil]
  | cons e events ih =>
    rw [← List.singleton_append, ← List.append_assoc]
    cases e with
    | instr func place op =>
      rw [List.filter_cons_of_neg (by simp [TraceEvent.isInstr])] at hnests
      exact ih (h.snoc (.instr opened func place op)) hnests
    | enter scope depth =>
      cases hnests with
      | enter _ _ hnests => exact ih (h.snoc (.enter scope opened)) hnests
    | exit scope depth =>
      cases hnests with
      | exit hnests => exact ih (h.snoc (.exit scope _)) hnests
    | _ => cases hnests

theorem last (h : Opens (told ++ [e]) left) : ∃ opened, Opens told opened ∧ Turn opened e left := by
  generalize hall : told ++ [e] = all at h
  cases h with
  | nil => simp at hall
  | snoc h hturn =>
    obtain ⟨rfl, heq⟩ := List.append_inj' hall rfl
    obtain rfl := List.singleton_inj.mp heq
    exact ⟨_, h, hturn⟩

theorem init (h : Opens (told ++ rest) left) : ∃ opened, Opens told opened := by
  induction rest using List.reverseRecOn generalizing left with
  | nil => exact ⟨left, by rwa [List.append_nil] at h⟩
  | append_singleton rest e ih =>
    rw [← List.append_assoc] at h
    obtain ⟨opened, hrest, -⟩ := h.last
    exact ih hrest

/-- What is open around one of the events. -/
theorem around (h : Opens (told ++ e :: rest) left) :
    ∃ opened opened', Opens told opened ∧ Turn opened e opened' ∧ Opens (told ++ [e]) opened' := by
  rw [← List.singleton_append, ← List.append_assoc] at h
  obtain ⟨opened', h⟩ := h.init
  obtain ⟨opened, htold, hturn⟩ := h.last
  exact ⟨opened, opened', htold, hturn, h⟩

variable (s : Store) {sink : SpanSink}

/-- So many spans are open as scopes. -/
theorem openScopes (h : Opens told left) (hempty : sink.scopes = []) :
    (sink.after s told).openScopes = left.length := by
  induction h with
  | nil => exact congrArg List.length hempty
  | snoc h hturn ih =>
    rw [SpanSink.after_snoc]
    cases hturn with
    | instr => exact ih
    | enter scope outer => exact congrArg (· + 1) ih
    | exit scope outer =>
      rw [SpanSink.receive_exit, SpanSink.openScopes_closeScope, ih]
      rfl

/-- The span of the run stays open. -/
theorem run (h : Opens told left) : (sink.after s told).run = sink.run := by
  induction h with
  | nil => rfl
  | snoc h hturn ih =>
    rw [SpanSink.after_snoc]
    cases hturn with
    | instr => exact ih
    | enter scope outer => exact ih
    | exit scope outer => exact SpanSink.run_closeScope.trans ih

variable (sink) in
/-- An open scope was entered, and nothing outside it was told since. The span that was opened
then is the innermost now, inside those that were open before. -/
theorem enterOf {told : List TraceEvent} {scope : Scope} {outer : List Scope}
    (h : Opens told (scope :: outer)) :
    ∃ earlier inside, told = earlier ++ .enter scope (outer.length + 1) :: inside ∧
      (∀ e ∈ inside, e.Within (outer.length + 1)) ∧ Opens earlier outer ∧
      (sink.after s told).scopes =
        (sink.after s earlier).next (SpanSink.spanOf scope (outer.length + 1)).1 ::
          (sink.after s earlier).scopes := by
  cases h with
  | @snoc init opened _ e h hturn =>
    rw [SpanSink.after_snoc]
    cases hturn with
    | instr _ func place op =>
      obtain ⟨earlier, inside, rfl, hinside, hearlier, hscopes⟩ := enterOf h
      refine ⟨earlier, inside ++ [.instr func place op], by simp, ?_, hearlier, hscopes⟩
      exact List.forall_mem_append.mpr ⟨hinside, List.forall_mem_singleton.mpr trivial⟩
    | enter => exact ⟨init, [], rfl, List.forall_mem_nil _, h, rfl⟩
    | exit inner =>
      -- The scope that is left was entered in its turn, and this one before it.
      obtain ⟨middle, inside, rfl, hinside, hmiddle, hscopes⟩ := enterOf h
      obtain ⟨earlier, inside', rfl, hinside', hearlier, hscopes'⟩ := enterOf hmiddle
      let whole := .enter inner ((scope :: outer).length + 1) ::
        (inside ++ [.exit inner ((scope :: outer).length + 1)])
      have hdeeper : outer.length + 1 < (scope :: outer).length + 1 := Nat.lt_succ_self _
      have hwhole : ∀ e ∈ whole, e.Within (outer.length + 1) := by
        refine List.forall_mem_cons.mpr ⟨hdeeper, List.forall_mem_append.mpr ⟨fun e he => ?_, ?_⟩⟩
        · exact .mono hdeeper.le (hinside e he)
        · exact List.forall_mem_singleton.mpr hdeeper
      refine ⟨earlier, inside' ++ whole, by simp [whole],
        List.forall_mem_append.mpr ⟨hinside', hwhole⟩, hearlier, ?_⟩
      rw [← hscopes', SpanSink.receive_exit]
      exact SpanSink.scopes_closeScope hscopes
termination_by told.length

end Opens

/-! ### Runs -/

/-- A run that is watched: of an executor, from an entry with an argument, on a store. -/
structure Watched where
  executor : Executor
  entry : Addr
  arg : Addr
  mask : TraceMask
  store : Store

namespace Watched

variable (r : Watched)

def result : EStateM.Result EvalError RunState Addr :=
  r.executor.run r.entry r.arg r.mask r.store

def events : List TraceEvent := r.result.state.trace.events.toList

end Watched

/-- The sink after it has watched a run. -/
def SpanSink.watch (sink : SpanSink) (r : Watched) : SpanSink :=
  sink.receiveAll r.result.state.store r.result.state.trace.events

theorem SpanSink.watch_eq (sink : SpanSink) (r : Watched) :
    sink.watch r = sink.after r.result.state.store r.events :=
  (Array.foldl_toList _).symm

theorem SpanSink.Sound.watch {sink : SpanSink} (h : sink.Sound) (r : Watched) :
    (sink.watch r).Sound := by
  rw [SpanSink.watch_eq]
  exact h.after _ _

/-- What is told of an evaluation whose calls nest: its start, then turns, and its end. -/
theorem Account.turns {ε α : Type} {Q : List TraceEvent → List Scope → Prop} {entry arg : Addr}
    {mask : TraceMask} {x : EStateM.Result ε RunState α} {events : List TraceEvent}
    {last : TraceEvent} {live : List Scope} {limit : Nat}
    (h : Account Q entry arg (.start mask) x events last live) (hmask : mask.WantsCalls)
    (hnests : Nests limit [] (events.filter fun e => !e.isInstr) live) :
    ∃ told, x.state.trace.events.toList = .runStart entry arg :: (told ++ [last]) ∧
      Opens told live := by
  have hlast : mask.wants last = true := hmask.wants (TraceEvent.isInstr_of_isEnd h.ends)
  have hwanted : (events.filter mask.wants).filter (fun e => !e.isInstr) =
      events.filter fun e => !e.isInstr := by
    rw [List.filter_filter]
    refine List.filter_congr fun e _ => ?_
    cases he : e.isInstr with
    | true => rfl
    | false => simp [hmask.wants he]
  refine ⟨events.filter mask.wants, ?_, Opens.nil.of_nests (hwanted ▸ hnests)⟩
  have hstart : mask.wants (.runStart entry arg) = true := hmask.run
  rw [h.told, Trace.toList_tell]
  show [] ++ List.filter mask.wants _ = _
  rw [List.nil_append, List.filter_cons_of_pos hstart, List.filter_append,
    List.filter_cons_of_pos hlast, List.filter_nil]

/-- A run that tells of its calls tells of its start, then of turns, and of its end. -/
theorem Watched.turns (r : Watched) (h : r.mask.WantsCalls) :
    ∃ told last left, r.events = .runStart r.entry r.arg :: (told ++ [last]) ∧
      Opens told left ∧ last.isEnd = true := by
  obtain ⟨executor, entry, arg, mask, s⟩ := r
  cases executor with
  | machine limits =>
    obtain ⟨events, last, hrun⟩ := Executor.machine_account limits entry arg mask s
    obtain ⟨told, hevents, hopens⟩ := hrun.turns h (hrun.between.nests (Nat.le_max_left ..))
    exact ⟨told, last, _, hevents, hopens, hrun.ends⟩
  | composed p limits =>
    obtain ⟨events, last, hrun⟩ := Executor.composed_account p limits entry arg mask s
    have hnests := hrun.between
    obtain ⟨told, hevents, hopens⟩ := hrun.turns h (hnests.filter_eq.symm ▸ hnests)
    exact ⟨told, last, _, hevents, hopens, hrun.ends⟩

/-! ### Pairs -/

/-- How a sink that is told these events keeps its spans. -/
structure SpanSink.Pairs (sink : SpanSink) (s : Store) (events : List TraceEvent) : Prop where
  /-- As many scopes are open after an enter as its depth says, -/
  entered : ∀ {before later : List TraceEvent} {scope : Scope} {depth : Nat},
    events = before ++ .enter scope depth :: later →
      (sink.after s (before ++ [.enter scope depth])).openScopes = depth
  /-- and as many before an exit. -/
  left : ∀ {before later : List TraceEvent} {scope : Scope} {depth : Nat},
    events = before ++ .exit scope depth :: later → (sink.after s before).openScopes = depth
  /-- The span that an exit leaves was opened when the same scope was entered, with nothing
  outside it told of in between; after the exit the same spans are open as before the enter. -/
  paired : ∀ {before later : List TraceEvent} {scope : Scope} {depth : Nat},
    events = before ++ .exit scope depth :: later → ∃ earlier inside,
      before = earlier ++ .enter scope depth :: inside ∧ (∀ e ∈ inside, e.Within depth) ∧
      (sink.after s before).scopes =
        (sink.after s earlier).next (spanOf scope depth).1 :: (sink.after s earlier).scopes ∧
      (sink.after s (before ++ [.exit scope depth])).scopes = (sink.after s earlier).scopes
  /-- After the first event and before the last the one span of a run that is open is the one
  that was opened first. -/
  running : ∀ {before later : List TraceEvent}, events = before ++ later → before ≠ [] →
    later ≠ [] → (sink.after s before).openSpans.filter (·.name = .run) = [sink.next .run]
  /-- Spans that are open at a time differ in their numbers. -/
  distinct : ∀ {before later : List TraceEvent}, events = before ++ later →
    ((sink.after s before).openSpans.map Span.number).Nodup
  /-- At the end no span is open. -/
  settled : (sink.after s events).openSpans = []

theorem between_ends {told before later : List TraceEvent} {first last : TraceEvent}
    (h : first :: (told ++ [last]) = before ++ later) (hbefore : before ≠ [])
    (hlater : later ≠ []) :
    ∃ told' rest, before = first :: told' ∧ later = rest ++ [last] ∧ told = told' ++ rest := by
  obtain ⟨x, told', rfl⟩ := List.exists_cons_of_ne_nil hbefore
  rw [← List.dropLast_append_getLast hlater] at h ⊢
  obtain ⟨rfl, htail⟩ := List.cons_eq_cons.mp h
  rw [List.append_eq, ← List.append_assoc] at htail
  obtain ⟨rfl, heq⟩ := List.append_inj' htail rfl
  exact ⟨told', later.dropLast, rfl, by rw [heq], rfl⟩

/-- A call is told of between the start and the end. -/
theorem call_between_ends {told before later : List TraceEvent} {first last e : TraceEvent}
    (h : first :: (told ++ [last]) = before ++ e :: later) (hfirst : first.isCall = false)
    (hlast : last.isCall = false) (he : e.isCall = true) :
    ∃ told' rest, before = first :: told' ∧ told = told' ++ e :: rest := by
  have hbefore : before ≠ [] := by
    rintro rfl
    obtain ⟨rfl, -⟩ := List.cons_eq_cons.mp h
    cases hfirst.symm.trans he
  obtain ⟨told', rest, rfl, hlater, rfl⟩ := between_ends h hbefore (List.cons_ne_nil e later)
  cases rest with
  | nil =>
    obtain ⟨rfl, -⟩ := List.cons_eq_cons.mp hlater
    cases hlast.symm.trans he
  | cons x rest =>
    obtain ⟨rfl, -⟩ := List.cons_eq_cons.mp hlater
    exact ⟨told', rest, rfl, rfl⟩

theorem isCall_of_isEnd {e : TraceEvent} (h : e.isEnd = true) : e.isCall = false := by
  cases e with
  | enter => cases h
  | exit => cases h
  | _ => rfl

/-- A sink pairs the spans of a run whose calls take turns. -/
theorem SpanSink.pairs {sink : SpanSink} (h : sink.Sound) (s : Store) (entry arg : Addr)
    {told : List TraceEvent} {left : List Scope} (htold : Opens told left) {last : TraceEvent}
    (hlast : last.isEnd = true) : sink.Pairs s (.runStart entry arg :: (told ++ [last])) := by
  -- The start finds or makes the sink empty; what it is told next it is told from there.
  let first := receive s sink (.runStart entry arg)
  obtain ⟨hempty, hrun⟩ : first.scopes = [] ∧ first.run = some (sink.next .run) :=
    openSpans_started s entry arg
  have hcall {before later : List TraceEvent} {e : TraceEvent} (he : e.isCall = true)
      (h : .runStart entry arg :: (told ++ [last]) = before ++ e :: later) :=
    call_between_ends h rfl (isCall_of_isEnd hlast) he
  refine ⟨fun {before later scope depth} heq => ?entered,
    fun {before later scope depth} heq => ?left, fun {before later scope depth} heq => ?paired,
    fun {before later} heq hbefore hlater => ?running, fun {before later} heq => ?distinct,
    ?settled⟩
  case entered =>
    obtain ⟨told', rest, rfl, rfl⟩ := hcall rfl heq
    obtain ⟨opened, opened', -, hturn, hopened'⟩ := htold.around
    cases hturn
    exact hopened'.openScopes s hempty
  case left =>
    obtain ⟨told', rest, rfl, rfl⟩ := hcall rfl heq
    obtain ⟨opened, opened', hopened, hturn, -⟩ := htold.around
    cases hturn
    exact hopened.openScopes s hempty
  case paired =>
    obtain ⟨told', rest, rfl, rfl⟩ := hcall rfl heq
    obtain ⟨opened, opened', hopened, hturn, -⟩ := htold.around
    cases hturn
    obtain ⟨earlier, inside, rfl, hinside, -, hscopes⟩ := hopened.enterOf s first
    refine ⟨.runStart entry arg :: earlier, inside, rfl, hinside, hscopes, ?_⟩
    rw [after_snoc, receive_exit]
    exact scopes_closeScope hscopes
  case running =>
    obtain ⟨told', rest, rfl, -, rfl⟩ := between_ends heq hbefore hlater
    obtain ⟨opened, hopened⟩ := htold.init
    have hrun' : (first.after s told').run = some (sink.next .run) := (hopened.run s).trans hrun
    have hscopes : (first.after s told').scopes.filter (·.name = .run) = [] := by
      rw [List.filter_eq_nil_iff]
      intro span hspan
      have hname := ((h.receive s (.runStart entry arg)).after s told').scopes span hspan
      simpa using hname
    show (first.after s told').openSpans.filter _ = _
    rw [openSpans, List.filter_append, hscopes, hrun']
    rfl
  case distinct => exact (h.after s before).distinct
  case settled =>
    rw [← List.cons_append, after_snoc]
    cases last with
    | runOk | runFault | runFatal => exact openSpans_closeRun rfl
    | _ => cases hlast

/-- **Spans are paired.** Runs by machines and composed code, under whatever masks and however
they end, may share a sink. In each one of them that tells of its ends and its calls as many
scopes are open as the depth of a call says, an exit leaves the span that was opened for the
scope that is left, and one span of a run is open throughout. Then no span is left open, and
each that the log enters it leaves. -/
theorem Watched.spans_paired {start : SpanSink}
    (hstart : start = .new ∨ start = .withInstructions .new) (earlier : List Watched) (r : Watched)
    (h : r.mask.WantsCalls) :
    let sink := earlier.foldl SpanSink.watch start
    sink.Pairs r.result.state.store r.events ∧
      (sink.watch r).openScopes = 0 ∧
      ∀ name, (sink.watch r).entered name = (sink.watch r).left name := by
  intro sink
  have hsink : sink.Sound := by
    refine List.foldlRecOn earlier SpanSink.watch ?_ fun sink hsink r _ => hsink.watch r
    obtain rfl | rfl := hstart
    · exact .start ⟨true, false, true⟩
    · exact .start ⟨true, true, true⟩
  obtain ⟨told, last, left, hevents, htold, hlast⟩ := r.turns h
  have hpairs := SpanSink.pairs hsink r.result.state.store r.entry r.arg htold hlast
  rw [← hevents] at hpairs
  have hsettled : (sink.watch r).openSpans = [] := by
    rw [SpanSink.watch_eq]
    exact hpairs.settled
  refine ⟨hpairs, ?_, fun name => ?_⟩
  · exact List.length_eq_zero_iff.mpr (List.append_eq_nil_iff.mp hsettled).1
  · have hname := (hsink.watch r).accounted name
    rwa [hsettled] at hname

/-- The relay, after a run of it that was cut short in a call and told of its calls only. -/
theorem Watched.spans_paired_relay :
    let short : Watched :=
      ⟨.machine ⟨4, 2⟩, ⟨5⟩, Addr.unit, ⟨false, false, true⟩, .withRelay⟩
    let r : Watched := ⟨.machine .standard, ⟨5⟩, Addr.unit, .all, .withRelay⟩
    (SpanSink.new.watch short).Pairs r.result.state.store r.events ∧
      ((SpanSink.new.watch short).watch r).openScopes = 0 :=
  have h := spans_paired (.inl rfl)
    [⟨.machine ⟨4, 2⟩, ⟨5⟩, Addr.unit, ⟨false, false, true⟩, .withRelay⟩]
    ⟨.machine .standard, ⟨5⟩, Addr.unit, .all, .withRelay⟩ ⟨rfl, rfl⟩
  ⟨h.1, h.2.1⟩

end ValueMachine
