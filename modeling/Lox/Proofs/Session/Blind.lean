import Lox.Proofs.Relabel.Eval
import Lox.Proofs.Relabel.Scope
import Lox.Proofs.Session.History

/-!
# What a session does not know

The store of a session holds expressions, in the closures it keeps. All of them have numbers that were
given before, so nothing in the store tells how later numbers are given.

Main statements: `Eval.run_interpret_relabel`, by which a program runs in the same way after a change
of numbers and places, and `Session.History.numbersBelow`.
-/

namespace Lox

variable {f : Relabel} {setting setting' : Setting} {low high : Nat}

/-! ## Numbers below a bound -/

namespace Relabel

/-- The same change of places, with no change of numbers. -/
def unnumbered (f : Relabel) : Relabel :=
  { f with number := id }

/-- Some numbers from `low` on are skipped, and the places are changed by `place`. -/
def skip (low count : Nat) (place : Span → Span) : Relabel :=
  ⟨fun n => if n < low then n else n + count, place, []⟩

/-- Numbers below the bound stay, and no other number falls below the bound. -/
structure Fixes (f : Relabel) (high : Nat) : Prop where
  below : ∀ n < high, f.number n = n
  above : ∀ n, high ≤ n → high ≤ f.number n

theorem Fixes.mono (h : f.Fixes high) (hle : low ≤ high) : f.Fixes low := by
  refine ⟨?_, ?_⟩
  · intro n hn
    exact h.below n (Nat.lt_of_lt_of_le hn hle)
  · intro n hn
    by_cases hlt : n < high
    · rw [h.below n hlt]
      exact hn
    · exact Nat.le_trans hle (h.above n (Nat.le_of_not_lt hlt))

theorem skip_of_lt {count n : Nat} {place : Span → Span} (h : n < low) :
    (skip low count place).number n = n :=
  if_pos h

theorem skip_of_le {count n : Nat} {place : Span → Span} (h : low ≤ n) :
    (skip low count place).number n = n + count :=
  if_neg (Nat.not_lt.mpr h)

theorem fixes_skip (low count : Nat) (place : Span → Span) : (skip low count place).Fixes low := by
  refine ⟨fun n hn => skip_of_lt hn, ?_⟩
  intro n hn
  rw [skip_of_le hn]
  exact Nat.le_add_right_of_le hn

theorem skip_injective (low count : Nat) (place : Span → Span) :
    Function.Injective (skip low count place).number := by
  intro n n' h
  simp only [skip] at h
  split at h <;> split at h <;> omega

end Relabel

namespace Locals

/-- Distances are recorded only for numbers from `low` to `high`. -/
def Within (locals : Locals) (low high : Nat) : Prop :=
  ∀ entry ∈ locals, low ≤ entry.1 ∧ entry.1 < high

variable {locals : Locals} {id : Nat}

theorem Within.distance?_of_lt (h : locals.Within low high) (hid : id < low) :
    locals.distance? id = none := by
  apply distance?_eq_none
  intro entry hentry heq
  have hlow : low ≤ entry.1 := (h entry hentry).1
  omega

theorem Within.distance?_of_le (h : locals.Within low high) (hid : high ≤ id) :
    locals.distance? id = none := by
  apply distance?_eq_none
  intro entry hentry heq
  have hhigh : entry.1 < high := (h entry hentry).2
  omega

theorem Within.distance?_fixes (h : locals.Within low high) (hf : f.Fixes high) (id : Nat) :
    locals.distance? (f.number id) = locals.distance? id := by
  by_cases hid : id < high
  · rw [hf.below id hid]
  · have hle : high ≤ id := Nat.le_of_not_lt hid
    rw [h.distance?_of_le hle, h.distance?_of_le (hf.above id hle)]

/-- A change of numbers that have not been given leaves the recorded distances. -/
theorem Within.relabel_eq (h : locals.Within low high) (hf : f.Fixes high) :
    relabel f locals = locals := by
  unfold relabel
  refine (List.map_congr_left ?_).trans (List.map_id locals)
  intro entry hentry
  exact congrArg (·, entry.2) (hf.below entry.1 (h entry hentry).2)

end Locals

/-- Resolution records distances only for the expressions of the program. -/
theorem Stmt.within_programFindings {ss : List Stmt} (hread : ReadAll low high (partsAll ss))
    (herrors : (programFindings ss).errors = []) : (programFindings ss).locals.Within low high := by
  have hcovers : Covers (programFindings ss) (programVisits ss) := covers_resolveAll rfl [] ss
  have hexprs : (programVisits ss).map Visit.expr = expressions (partsAll ss) :=
    map_expr_visitsAll none [] ss
  intro entry hentry
  rw [hcovers.locals, List.mem_flatMap] at hentry
  rcases hentry with ⟨v, hv, hentry⟩
  have hsilent : v.findings.errors = [] := by
    have hsubset := hcovers.errors v hv
    rw [herrors] at hsubset
    exact List.subset_nil.mp hsubset
  rw [Visit.locals_of_errors hsilent, Option.mem_toList, Option.map_eq_some_iff] at hentry
  rcases hentry with ⟨d, -, rfl⟩
  apply hread.expressions.fresh.2
  rw [← hexprs, List.map_map]
  exact List.mem_map_of_mem hv

/-! ## Running programs -/

theorem Eval.mirrors_interpret (frame : FrameId) (ss : List Stmt) :
    (interpret frame ss).Mirrors f setting setting' id
      (interpret frame (Stmt.relabelAll f ss)) := by
  induction ss with
  | nil =>
      exact .pure rfl
  | cons s ss ih =>
      refine (mirrors_execute frame s).bind ?_
      intro _
      exact ih

/-- A program runs in the same way after a change of numbers and places. -/
theorem Eval.run_interpret_relabel (hsetting : setting.Mirrors f setting') (fuel : Nat)
    (frame : FrameId) (ss : List Stmt) (m : Machine) :
    (interpret frame (Stmt.relabelAll f ss) setting' (m.relabel f)).run (perform setting' fuel) =
      ((interpret frame ss setting m).run (perform setting fuel)).relabel f id :=
  (mirrors_interpret frame ss m).run (perform_relabel hsetting fuel)

/-- All numbers in the store are below a bound: a change of others makes no difference. -/
def Store.NumbersBelow (s : Store) (high : Nat) : Prop :=
  ∀ f : Relabel, f.Fixes high → s.relabel f = s.relabel f.unnumbered

theorem Store.NumbersBelow.mono {s : Store} (h : s.NumbersBelow low) (hle : low ≤ high) :
    s.NumbersBelow high :=
  fun f hf => h f (hf.mono hle)

theorem Machine.relabel_skip {m : Machine} (h : m.store.NumbersBelow low) (count : Nat) :
    m.relabel (.skip low count id) = m := by
  have hstore : m.store.relabel (.skip low count id) = m.store :=
    (h _ (Relabel.fixes_skip low count id)).trans (Store.relabel_printing [] m.store)
  rw [relabel, hstore]
  exact congrArg (Machine.mk m.store m.depth m.readings) (List.append_nil m.printed)

/-- A program runs to the same end if more distances are recorded, all of them for later numbers. -/
theorem Eval.run_interpret_later {ss : List Stmt} {later : Locals} {frame : FrameId} {fuel mid : Nat}
    {m m' : Machine} (hread : Stmt.ReadAll low mid (Stmt.partsAll ss))
    (hlocals : setting.locals.Within 0 mid) (hlater : later.Within mid high)
    (hbelow : m.store.NumbersBelow mid) (hbelow' : m'.store.NumbersBelow mid)
    (hrun : (interpret frame ss setting m).run (perform setting fuel) = .ended (.ok ()) m') :
    (interpret frame ss { setting with locals := setting.locals ++ later } m).run
      (perform { setting with locals := setting.locals ++ later } fuel) = .ended (.ok ()) m' := by
  -- Skipping the later numbers makes the two settings the same.
  let f : Relabel := .skip mid high id
  have hmirrors : setting.Mirrors f { setting with locals := setting.locals ++ later } := by
    refine ⟨?_, rfl, rfl⟩
    intro id
    rw [Locals.distance?_append,
      hlocals.distance?_fixes (Relabel.fixes_skip mid high _)]
    by_cases hid : id < mid
    · rw [Relabel.skip_of_lt hid, hlater.distance?_of_lt hid, Option.or_none]
    · have hle : mid ≤ id := Nat.le_of_not_lt hid
      rw [Relabel.skip_of_le hle, hlocals.distance?_of_le hle,
        hlater.distance?_of_le (Nat.le_add_left high id)]
      rfl
  have hstatements : Stmt.relabelAll f ss = ss := by
    have hagree : f.Agree (.printing []) (Stmt.expressions (Stmt.partsAll ss)) :=
      .of_fresh hread.expressions.fresh (fun n hn => Relabel.skip_of_lt hn) rfl
    rw [Stmt.relabelAll_congr _ hagree, Stmt.relabelAll_printing]
  have hsame := run_interpret_relabel hmirrors fuel frame ss m
  rw [hstatements, Machine.relabel_skip hbelow, hrun] at hsame
  rw [hsame]
  exact congrArg (Outcome.ended (.ok ())) (Machine.relabel_skip hbelow' high)

/-! ## Sessions -/

namespace Session

variable {s s' : Session} {clock : Nat → Except String Float} {text : List Char} {runs : List Run}

theorem History.within (h : History runs s) : s.locals.Within 0 s.nextId := by
  rw [h.keeps.locals]
  exact Stmt.within_programFindings h.keeps.read h.keeps.errors

/-- The distances that a run can read are those of numbers that are given by then. -/
theorem History.within_running (h : History runs s) {r : Run}
    (hsome : s.running? clock text = some r) :
    r.setting.locals.Within 0 (s.chunk text).nextId := by
  rcases h.keeps.accept (accepts_of_running? hsome) with ⟨hread, herrors, hlocals⟩
  rw [hlocals]
  exact Stmt.within_programFindings hread herrors

/-- A store holds no number that has not been given yet. -/
theorem History.numbersBelow (h : History runs s) : s.machine.store.NumbersBelow s.nextId := by
  induction h with
  | empty =>
      intro f _
      exact Store.relabel_newGlobals.trans Store.relabel_newGlobals.symm
  | resetError _ ih =>
      exact ih
  | @run runs s s' fuel clock text answer hs hrun ih =>
      rcases run?_cases hrun with ⟨-, rfl⟩ | ⟨r, m, result, hadFault, hsome, ⟨fuel, hends⟩, rfl⟩
      · exact ih.mono (s.le_nextId_chunk text)
      · intro f hf
        have haccepts := accepts_of_running? hsome
        have hwithin := hs.within_running hsome
        have hstore := ih.mono (s.le_nextId_chunk text) f hf
        -- Both changes leave the distances as they are.
        have hself : r.setting.Mirrors f r.setting :=
          ⟨hwithin.distance?_fixes hf, rfl, rfl⟩
        have hself' : r.setting.Mirrors f.unnumbered r.setting :=
          ⟨fun _ => rfl, rfl, rfl⟩
        have hstatements : Stmt.relabelAll f r.statements =
            Stmt.relabelAll f.unnumbered r.statements :=
          Stmt.relabelAll_congr _ (.of_fresh haccepts.read.expressions.fresh hf.below rfl)
        have hmachine : r.machine.relabel f = r.machine.relabel f.unnumbered := by
          rw [haccepts.machine, Machine.relabel, Machine.relabel, hstore]
          rfl
        have hrun := Eval.run_interpret_relabel hself fuel r.setting.globals r.statements r.machine
        have hrun' :=
          Eval.run_interpret_relabel hself' fuel r.setting.globals r.statements r.machine
        rw [hstatements, hmachine, hrun'] at hrun
        unfold Run.course at hends
        rw [hends] at hrun
        exact congrArg Machine.store (Outcome.ended.inj hrun).2.symm

end Session

end Lox
