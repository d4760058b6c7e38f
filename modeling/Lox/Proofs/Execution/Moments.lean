import Lox.Proofs.Cutoff
import Lox.Proofs.Execution.Discipline
import Lox.Proofs.Stack.Sequence

/-!
# The moments at which a program writes

Whatever a program writes it writes line by line, and at the moment of a line the scopes are in some
state.  The moments of a program are read off its text, with the program itself run from one moment
to the next (`Stmt.moments`, `momentsOfProgram`).

Over a sink with a limit a program runs as it does without one, up to the line that the limit falls
into, and the scopes of its environment are then those of that moment
(`tracks_interpret`): blocks that are left because of a refusal change nothing in the scopes around
them.
-/

namespace Lox

open SharedList SharedList.Store Scopes

/-- A line that is written, and the scopes at that moment. -/
structure Moment where
  text : String
  scopes : Scopes

namespace Run

/-- The moments of a computation in a child of an environment. -/
def momentsInChild (env : Environment) (W : Environment → Machine → List Moment) :
    Machine → List Moment
  | ⟨scopes, sink, events⟩ =>
    match scopes.child env with
    | (child, scopes) => W child ⟨scopes, sink, events⟩

/-- The moments of the rounds of a loop, where `W` gives those of its body. -/
def momentsOfRounds (condition : Run Value) (body : Run Unit) (W : Machine → List Moment) :
    Nat → Machine → List Moment
  | 0 => fun _ => []
  | bound + 1 => after condition fun v =>
    if v.isTruthy then fun m => W m ++ after body (fun _ => momentsOfRounds condition body W bound) m
    else fun _ => []

end Run

mutual

/-- The moments at which a statement writes. -/
def Stmt.moments (bound : Nat) : Stmt → Environment → Machine → List Moment
  | .block body, env => Run.momentsInChild env fun child =>
    after (Run.enterBlock child) fun _ => Stmt.momentsOf bound body child
  | .print e, env => after (Run.eval (e.eval env)) fun v m => [⟨v.text, m.scopes⟩]
  | .expr _, _ => fun _ => []
  | .declare _ _, _ => fun _ => []
  | .ifThen c yes, env => after (Run.eval (c.eval env)) fun v =>
    if v.isTruthy then yes.moments bound env else fun _ => []
  | .ifElse c yes no, env => after (Run.eval (c.eval env)) fun v =>
    if v.isTruthy then yes.moments bound env else no.moments bound env
  | .loop c body, env => Run.momentsOfRounds (Run.eval (c.eval env)) (body.exec bound env)
    (body.moments bound env) bound

/-- The moments at which statements write, one after the other. -/
def Stmt.momentsOf (bound : Nat) : List Stmt → Environment → Machine → List Moment
  | [], _ => fun _ => []
  | s :: ss, env => fun m =>
    s.moments bound env m ++ after (s.exec bound env) (fun _ => Stmt.momentsOf bound ss env) m

end

/-- The moments at which a program writes. -/
def momentsOfProgram (bound : Nat) (globals : Environment) (program : List Stmt) :
    Machine → List Moment :=
  after (Run.changeScopes fun s => s.retain globals) fun _ => Stmt.momentsOf bound program globals

/-! ### Machines with a limit -/

namespace Machine

/-- The machine, with a sink that takes so many bytes and not more. -/
def limited (total : Nat) (m : Machine) : Machine :=
  { m with sink := { m.sink with limit := some total } }

/-- Lets go of an environment. -/
def letGo (env : Environment) (m : Machine) : Machine := { m with scopes := m.scopes.release env }

/-- Machines and the lines that are written: a computation that was refused leaves the scopes of the
environment as they were at that moment. -/
def scene (env : Environment) : Scene Machine Moment where
  held m := m.sink.held
  limited := limited
  bytes w := (w.text ++ "\n").toUTF8
  Left _ w t := t.scopes.toList env = w.scopes.toList env

end Machine

/-- The cells that the environment can reach have the same links in both stores. -/
def Scopes.SameLinks (env : Environment) (s s' : Scopes) : Prop :=
  ∀ a < reach env, (s'.cell? a).map Cell.next = (s.cell? a).map Cell.next

theorem Scopes.SameLinks.trans {env : Environment} {s s' s'' : Scopes} (h : SameLinks env s s')
    (h' : SameLinks env s' s'') : SameLinks env s s'' :=
  fun a ha => (h' a ha).trans (h a ha)

theorem Scopes.sameLinks_of_frame {as : List Nat} {s s' : Scopes} (h : Frame as s s')
    (env : Environment) : SameLinks env s s' := by
  intro a _
  have hshape := congrArg (Option.map Prod.fst) (h.shape a)
  rwa [Option.map_map, Option.map_map] at hshape

theorem Scopes.map_next_retain (s : Scopes) (env : Environment) (a : Nat) :
    ((s.retain env).cell? a).map Cell.next = (s.cell? a).map Cell.next := by
  have hretain := congrArg (Option.map Prod.snd) (map_cell?_retain s env a)
  rwa [Option.map_map, Option.map_map] at hretain

namespace Run

variable {α β : Type} {env : Environment}

/-- The computation from a machine writes at the moments, as far as the sink takes it. -/
structure TracksAt (env : Environment) (x : Run α) (m : Machine) (ws : List Moment) : Prop where
  tracks : (Machine.scene env).Tracks x m ws
  reliable : (endOf (x m)).sink.Reliable
  links : ∀ w ∈ ws, SameLinks env m.scopes w.scopes

/-- The computation in a held environment writes at the moments, as far as the sink takes it. -/
def Tracks (env : Environment) (x : Run α) (W : Machine → List Moment) : Prop :=
  ∀ m : Machine, m.sink.Reliable → Held m.scopes env → TracksAt env x m (W m)

/-! ### Steps -/

/-- A computation that leaves the sink alone. -/
theorem tracks_silent {x : Run α} (hsink : ∀ m, (endOf (x m)).sink = m.sink)
    (hlimited : ∀ total m, x (m.limited total) = mapState (Machine.limited total) (x m)) :
    Tracks env x fun _ => [] := by
  intro m hm _
  refine ⟨Scene.tracks_nil (congrArg Sink.held (hsink m)) fun total => hlimited total m, ?_,
    List.forall_mem_nil _⟩
  rw [hsink m]
  exact hm

theorem tracks_pure (a : α) : Tracks env (pure a) fun _ => [] :=
  tracks_silent (fun _ => rfl) fun _ _ => rfl

theorem eval_of_ok {x : Eval α} {m : Machine} {scopes : Scopes} {a : α}
    (h : x m.scopes = .ok a scopes) : eval x m = .ok a { m with scopes } := by
  unfold eval
  simp only [h]

theorem eval_of_error {x : Eval α} {m : Machine} {scopes : Scopes} {e : RuntimeError}
    (h : x m.scopes = .error e scopes) : eval x m = .error (.fault e) { m with scopes } := by
  unfold eval
  simp only [h]

theorem tracks_eval (x : Eval α) : Tracks env (eval x) fun _ => [] := by
  refine tracks_silent (fun m => ?_) fun total m => ?_
  · cases h : x m.scopes with
    | ok a scopes => rw [eval_of_ok h]; rfl
    | error e scopes => rw [eval_of_error h]; rfl
  · cases h : x m.scopes with
    | ok a scopes => rw [eval_of_ok h, eval_of_ok (m := m.limited total) h]; rfl
    | error e scopes => rw [eval_of_error h, eval_of_error (m := m.limited total) h]; rfl

theorem tracks_changeScopes (f : Scopes → Scopes) : Tracks env (changeScopes f) fun _ => [] :=
  tracks_silent (fun _ => rfl) fun _ _ => rfl

theorem tracks_enterBlock (child : Environment) : Tracks env (enterBlock child) fun _ => [] :=
  tracks_silent (fun _ => rfl) fun _ _ => rfl

theorem tracks_flush : Tracks env (output Sink.flush) fun _ => [] := by
  rintro ⟨scopes, ⟨held, limit, failFlush, flushes⟩, events⟩ ⟨rfl, rfl⟩ _
  exact ⟨Scene.tracks_nil rfl fun _ => rfl, ⟨rfl, rfl⟩, List.forall_mem_nil _⟩

theorem output_of_ok {x : EStateM SinkFault Sink α} {scopes : Scopes} {sink sink' : Sink}
    {events : List Event} {a : α} (h : x sink = .ok a sink') :
    output x ⟨scopes, sink, events⟩ = .ok a ⟨scopes, sink', events⟩ := by
  unfold output
  simp only [h]

theorem output_of_error {x : EStateM SinkFault Sink α} {scopes : Scopes} {sink sink' : Sink}
    {events : List Event} {f : SinkFault} (h : x sink = .error f sink') :
    output x ⟨scopes, sink, events⟩ = .error (.refused f) ⟨scopes, sink', events⟩ := by
  unfold output
  simp only [h]

/-- **A line is written as far as the sink takes it.** -/
theorem tracks_writeLine (text : String) :
    Tracks env (writeLine text) fun m => [⟨text, m.scopes⟩] := by
  rintro ⟨scopes, ⟨held, limit, failFlush, flushes⟩, events⟩ ⟨hlimit, hflush⟩ _
  obtain rfl : limit = none := hlimit
  have hnil : held ++ (Machine.scene env).written [] = held := ByteArray.append_empty
  have hline : held ++ (Machine.scene env).written [⟨text, scopes⟩] =
      held ++ (text ++ "\n").toUTF8 :=
    congrArg (held ++ ·) ByteArray.append_empty
  refine ⟨⟨hline.symm, fun total hfit => ?_, fun total hle hlt => ?_⟩, ⟨rfl, hflush⟩, ?_⟩
  · show writeLine text ⟨scopes, ⟨held, some total, failFlush, flushes⟩, events⟩ = _
    rw [writeLine, output_of_ok (Sink.write_of_fits (hline ▸ hfit))]
    rfl
  · have hle' : held.size ≤ total := hle
    have hlt' : total < (held ++ (text ++ "\n").toUTF8).size := hline ▸ hlt
    refine ⟨⟨text, scopes⟩, ⟨scopes, ⟨(held ++ (text ++ "\n").toUTF8).extract 0 total, some total,
      failFlush, flushes⟩, events⟩, ⟨[], [], rfl, ?_, ?_⟩, ?_,
      congrArg (ByteArray.extract · 0 total) hline.symm, rfl⟩
    · exact hnil.symm ▸ hle'
    · exact (congrArg (· ++ (text ++ "\n").toUTF8) hnil).symm ▸ hlt'
    · exact output_of_error (Sink.write_of_not_fits hle' hlt')
  · intro w hw
    cases List.mem_singleton.mp hw
    exact fun _ _ => rfl

/-- **Tracking is kept by one step after the other,** where the first one keeps the environment. -/
theorem Tracks.bind {x : Run α} {y : Stack.Run α} {f : α → Run β} {W : Machine → List Moment}
    {V : α → Machine → List Moment} (hx : Tracks env x W) (hy : Simulates env x y)
    (hf : ∀ a, Tracks env (f a) (V a)) : Tracks env (x >>= f) fun m => W m ++ after x V m := by
  intro m hm hheld
  have hfirst := hx m hm hheld
  have hreliable := hfirst.reliable
  have hframe := hy.frame hheld
  have hnext : ∀ a m₁, x m = .ok a m₁ → TracksAt env (f a) m₁ (V a m₁) := by
    intro a m₁ hrun
    rw [hrun] at hreliable hframe
    exact hf a m₁ hreliable (hheld.frame hframe)
  refine ⟨hfirst.tracks.bind (fun a m₁ hrun => (hnext a m₁ hrun).tracks) fun _ _ _ _ _ _ h => h, ?_,
    fun w hw => ?_⟩
  · cases hrun : x m with
    | ok a m₁ =>
      rw [bind_of_ok f hrun]
      exact (hnext a m₁ hrun).reliable
    | error e m₁ =>
      rw [hrun] at hreliable
      rw [bind_of_error f hrun]
      exact hreliable
  · rcases List.mem_append.mp hw with hw | hw
    · exact hfirst.links w hw
    · cases hrun : x m with
      | ok a m₁ =>
        rw [after_of_ok V hrun] at hw
        rw [hrun] at hframe
        exact (sameLinks_of_frame hframe env).trans ((hnext a m₁ hrun).links w hw)
      | error e m₁ =>
        rw [after_of_error V hrun] at hw
        cases hw

/-- A second step that writes nothing. -/
theorem Tracks.bind_silent {x : Run α} {y : Stack.Run α} {f : α → Run β} {W : Machine → List Moment}
    (hx : Tracks env x W) (hy : Simulates env x y) (hf : ∀ a, Tracks env (f a) fun _ => []) :
    Tracks env (x >>= f) W := by
  intro m hm hheld
  have h : TracksAt env (x >>= f) m (W m ++ after x (fun _ _ => []) m) := hx.bind hy hf m hm hheld
  rwa [after_nil, List.append_nil] at h

/-! ### Environments that are let go -/

theorem holding_eq (env : Environment) (x : Run α) (m : Machine) :
    holding env x m = mapState (Machine.letGo env) (x m) := by
  unfold holding
  cases x m with
  | ok a m => rfl
  | error e m => rfl

/-- A computation in an environment `inner` that is let go of at the end, started with other scopes. -/
theorem TracksAt.letGo {inner : Environment} {x y : Run α} {scopes scopes₁ : Scopes} {sink : Sink}
    {events : List Event} {ws : List Moment} (h : TracksAt inner x ⟨scopes₁, sink, events⟩ ws)
    (hy : ∀ sink, y ⟨scopes, sink, events⟩ =
      mapState (Machine.letGo inner) (x ⟨scopes₁, sink, events⟩))
    (hlinks : ∀ s, SameLinks inner scopes₁ s → SameLinks env scopes s)
    (hleft : ∀ sink s, SameLinks inner scopes₁ s →
      (endOf (x ⟨scopes₁, sink, events⟩)).scopes.toList inner = s.toList inner →
      ((endOf (x ⟨scopes₁, sink, events⟩)).scopes.release inner).toList env = s.toList env) :
    TracksAt env y ⟨scopes, sink, events⟩ ws := by
  have hlimited : ∀ total, y (Machine.limited total ⟨scopes, sink, events⟩) =
      mapState (Machine.letGo inner) (x (Machine.limited total ⟨scopes₁, sink, events⟩)) :=
    fun total => hy _
  refine ⟨⟨?_, fun total hfit => ?_, fun total hle hlt => ?_⟩, ?_, fun w hw => hlinks _ (h.links w hw)⟩
  · rw [hy, endOf_mapState]
    exact h.tracks.held_eq
  · show y (Machine.limited total _) = mapState (Machine.limited total) (y _)
    rw [hlimited, hy, show x (Machine.limited total _) = _ from h.tracks.fits total hfit,
      mapState_mapState, mapState_mapState]
    rfl
  · obtain ⟨w, t, hfalls, hrun, hbytes, hscopes⟩ := h.tracks.refused total hle hlt
    have hrun' : x (Machine.limited total ⟨scopes₁, sink, events⟩) = .error (.refused .full) t := hrun
    refine ⟨w, t.letGo inner, hfalls, ?_, hbytes, ?_⟩
    · show y (Machine.limited total _) = _
      rw [hlimited, hrun']
      rfl
    · have hend := hleft { sink with limit := some total } w.scopes (h.links w hfalls.mem)
      rw [show x ⟨scopes₁, { sink with limit := some total }, events⟩ = _ from hrun'] at hend
      exact hend hscopes
  · rw [hy, endOf_mapState]
    exact h.reliable

theorem Simulates.mirrors {x : Run α} {y : Stack.Run α} (h : Simulates env x y) {m : Machine}
    (hm : Held m.scopes env) : Scopes.Mirrors env m.scopes (endOf (x m)).scopes
      ((endOf (x m)).scopes.toList env) :=
  ⟨rfl, h.frame hm⟩

/-- **A block that is left because of a refusal** leaves the scopes around it as they were at that
moment. -/
theorem tracks_inChild {x : Environment → Run α} {y : Stack.Run α}
    {W : Environment → Machine → List Moment} (hx : ∀ child, Tracks child (x child) (W child))
    (hy : ∀ child, Simulates child (x child) y) :
    Tracks env (inChild env x) (momentsInChild env W) := by
  rintro ⟨scopes, sink, events⟩ hsink hheld
  obtain ⟨n, s₁, hs₁, hchild⟩ := exists_child hheld
  have hrun : ∀ sink, inChild env x ⟨scopes, sink, events⟩ =
      mapState (Machine.letGo (some n)) (x (some n) ⟨s₁, sink, events⟩) := by
    intro sink
    unfold inChild
    simp only [hs₁]
    exact holding_eq _ _ _
  have hmoments : momentsInChild env W ⟨scopes, sink, events⟩ = W (some n) ⟨s₁, sink, events⟩ := by
    unfold momentsInChild
    simp only [hs₁]
  have hbelow : reach env ≤ n := by
    have hle := reach_older_le n (⟨{}, env, 1⟩ : Cell Scope)
    rwa [hchild.older_eq hheld] at hle
  rw [hmoments]
  refine (hx (some n) ⟨s₁, sink, events⟩ hsink hchild.held).letGo hrun
    (fun s hlinks a ha => ?_) fun sink s hlinks hscopes => ?_
  · -- Below the child only the count of the environment has changed.
    have hlt : a < n := Nat.lt_of_lt_of_le ha hbelow
    rw [hlinks a (Nat.lt_succ_of_lt hlt), hchild.other a (Nat.ne_of_lt hlt)]
    exact map_next_retain scopes env a
  · have hm := (hy (some n)).mirrors (m := ⟨s₁, sink, events⟩) hchild.held
    -- At the moment of the refusal the child still links to the environment.
    have hn := hlinks n (Nat.lt_succ_self n)
    rw [hchild.cell, Option.map_some, Option.map_eq_some_iff] at hn
    obtain ⟨c, hc, hnext⟩ := hn
    have hold : older n c = env := by
      have hold := hchild.older_eq hheld c.elem
      unfold older at hold ⊢
      rwa [hnext]
    rw [(mirrors_release hheld hchild hm).scopes_eq, hscopes, toList_some hc, hold, List.tail_cons]

/-- **A program that is refused** leaves the globals as they were at that moment. -/
theorem tracks_holding {x : Run α} {y : Stack.Run α} {W : Machine → List Moment}
    (hx : Tracks env x W) (hy : Simulates env x y) :
    Tracks env (do changeScopes fun s => s.retain env; holding env x)
      (after (changeScopes fun s => s.retain env) fun _ => W) := by
  rintro ⟨scopes, sink, events⟩ hsink hheld
  refine (hx ⟨scopes.retain env, sink, events⟩ hsink hheld.retain).letGo
    (fun sink => holding_eq _ _ _) (fun s hlinks a ha => ?_) fun sink s hlinks hscopes => ?_
  · rw [hlinks a ha]
    exact map_next_retain scopes env a
  · have hm := hy.mirrors (m := ⟨scopes.retain env, sink, events⟩) hheld.retain
    rw [(mirrors_retain_release hheld hm).scopes_eq, hscopes]

/-! ### Loops -/

theorem tracks_whileTrue {condition : Run Value} {condition' : Stack.Run Value} {body : Run Unit}
    {body' : Stack.Run Unit} {W : Machine → List Moment} (hc : Tracks env condition fun _ => [])
    (hc' : Simulates env condition condition') (hb : Tracks env body W)
    (hb' : Simulates env body body') (bound : Nat) :
    Tracks env (whileTrue condition body bound) (momentsOfRounds condition body W bound) := by
  induction bound with
  | zero => exact tracks_silent (fun _ => rfl) fun _ _ => rfl
  | succ bound ih =>
    refine hc.bind hc' fun v => ?_
    cases v.isTruthy with
    | true => exact hb.bind hb' fun _ => ih
    | false => exact tracks_pure ()

end Run

/-! ### Statements and programs -/

open Run

mutual

/-- **A statement is executed as far as the sink takes what it writes.** -/
theorem Stmt.tracks_exec (bound : Nat) (s : Stmt) (env : Environment) :
    Run.Tracks env (s.exec bound env) (s.moments bound env) := by
  have heval : ∀ e : Expr, Simulates env (Run.eval (e.eval env)) (Stack.onScopes (Stack.eval e)) :=
    fun e => Run.simulates_eval (Eval.simulates_eval e)
  cases s with
  | block body =>
    rw [Stmt.exec, Stmt.moments]
    refine tracks_inChild (fun child => ?_) fun child =>
      Run.simulates_enterBlock (Stmt.simulates_execEach bound body child)
    have henter : Simulates child (enterBlock child) (pure ()) :=
      Run.simulates_enterBlock (x := pure ()) (Run.simulates_pure ())
    exact (tracks_enterBlock child).bind henter fun _ => Stmt.tracks_execEach bound body child
  | expr e =>
    rw [Stmt.exec, Stmt.moments]
    exact (tracks_eval _).bind_silent (heval e) fun _ => tracks_pure ()
  | print e =>
    rw [Stmt.exec, Stmt.moments]
    exact (tracks_eval _).bind (heval e) fun v => tracks_writeLine v.text
  | declare t initial =>
    cases initial with
    | none =>
      rw [Stmt.exec, Stmt.moments]
      exact tracks_changeScopes _
    | some e =>
      rw [Stmt.exec, Stmt.moments]
      exact (tracks_eval _).bind_silent (heval e) fun _ => tracks_changeScopes _
  | ifThen c yes =>
    rw [Stmt.exec, Stmt.moments]
    refine (tracks_eval _).bind (heval c) fun v => ?_
    cases v.isTruthy with
    | true => exact yes.tracks_exec bound env
    | false => exact tracks_pure ()
  | ifElse c yes no =>
    rw [Stmt.exec, Stmt.moments]
    refine (tracks_eval _).bind (heval c) fun v => ?_
    cases v.isTruthy with
    | true => exact yes.tracks_exec bound env
    | false => exact no.tracks_exec bound env
  | loop c body =>
    rw [Stmt.exec, Stmt.moments]
    exact tracks_whileTrue (tracks_eval _) (heval c) (body.tracks_exec bound env)
      (body.simulates_exec bound env) bound

/-- Statements one after the other are executed as far as the sink takes what they write. -/
theorem Stmt.tracks_execEach (bound : Nat) (ss : List Stmt) (env : Environment) :
    Run.Tracks env (Stmt.execEach bound ss env) (Stmt.momentsOf bound ss env) := by
  cases ss with
  | nil =>
    rw [Stmt.execEach, Stmt.momentsOf]
    exact tracks_pure ()
  | cons s ss =>
    rw [Stmt.execEach, Stmt.momentsOf]
    exact (s.tracks_exec bound env).bind (s.simulates_exec bound env) fun _ =>
      Stmt.tracks_execEach bound ss env

end

/-- **A program runs as far as the sink takes what it writes.** -/
theorem tracks_interpret (bound : Nat) (globals : Environment) (program : List Stmt) :
    Run.Tracks globals (interpret bound globals program) (momentsOfProgram bound globals program) := by
  have heach := Stmt.simulates_execEach bound program globals
  exact tracks_holding
    ((Stmt.tracks_execEach bound program globals).bind_silent heach fun _ => tracks_flush)
    (heach.bind fun _ => Run.simulates_output Sink.flush)

end Lox
