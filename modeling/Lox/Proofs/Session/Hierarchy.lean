import Lox.Proofs.Eval.Showing
import Lox.Proofs.Session.Identity

/-!
# Class hierarchies

A class is made after its superclass, whatever its name is and whatever was bound to that name before.
So the line of its superclasses leads to ever earlier classes and ends, and a method is looked for
along that line. The classes of a session are told apart by their numbers: there is one class for a
number, and it never changes.

* `Session.History.census` lists all classes and instances of a session.

Main statement: `Session.History.classes_descend`.
-/

namespace Lox

/-! ## Lines of classes -/

/-- The class of a value, if it is a class or an instance, and the classes it inherits from. -/
def Value.line : Value → List Class
  | .class cls => cls.line
  | .instance object => object.cls.line
  | _ => []

/-- The method that a class declaration has for a name. Of two with one name the last one counts. -/
def ClassDecl.method? (d : ClassDecl) (name : String) : Option FunctionDecl :=
  d.methods.reverse.find? fun method => method.name.name == name

theorem Eval.value?_closeMethods (frame : FrameId) (d : ClassDecl) (name : String) :
    (closeMethods frame d.methods).value? name = (d.method? name).map fun method =>
      ⟨method, frame, method.name.name == initializerName⟩ := by
  suffices hfold : ∀ (methods : List FunctionDecl) (table : Bindings Closure),
      Bindings.value? (methods.foldl (fun table decl =>
        table.put decl.name.name ⟨decl, frame, decl.name.name == initializerName⟩) table) name =
      ((methods.reverse.find? fun method => method.name.name == name).map fun method =>
        (⟨method, frame, method.name.name == initializerName⟩ : Closure)).or (table.value? name) by
    refine (hfold d.methods []).trans ?_
    rw [Bindings.value?_nil, Option.or_none]
    rfl
  intro methods
  induction methods with
  | nil =>
      intro table
      rfl
  | cons decl methods ih =>
      intro table
      rw [List.foldl_cons, ih, List.reverse_cons, List.find?_append, Bindings.value?_put]
      cases methods.reverse.find? fun method => method.name.name == name with
      | some method =>
          rfl
      | none =>
          by_cases hname : decl.name.name = name <;> simp [hname]

namespace Census

variable {k : Census} {P : ClassDecl → Prop} {v : Value} {c : Class}

/-- With a class the classes it inherits from are listed, and their numbers get smaller. -/
theorem Orderly.line (h : k.Orderly P) (hc : k.HasClass c) :
    (∀ p ∈ c.line, k.HasClass p ∧ p.id ≤ c.id) ∧ c.line.Pairwise fun c p => p.id < c.id := by
  induction c with
  | root id name methods =>
      rw [Class.line]
      refine ⟨List.forall_mem_singleton.mpr ⟨hc, Nat.le_refl _⟩, List.pairwise_singleton _ _⟩
  | derived id name methods superclass ih =>
      rcases h.superclass _ hc superclass rfl with ⟨hlt, hsuper⟩
      rcases ih hsuper with ⟨hall, hpairwise⟩
      rw [Class.line]
      refine ⟨List.forall_mem_cons.mpr ⟨⟨hc, Nat.le_refl _⟩, ?_⟩, List.pairwise_cons.mpr ⟨?_, hpairwise⟩⟩
      · intro p hp
        rcases hall p hp with ⟨hhas, hle⟩
        exact ⟨hhas, Nat.le_of_lt (Nat.lt_of_le_of_lt hle hlt)⟩
      · intro p hp
        exact Nat.lt_of_le_of_lt (hall p hp).2 hlt

theorem Orderly.hasClass_of_mem_line (h : k.Orderly P) (hv : k.Has v) (hc : c ∈ v.line) :
    k.HasClass c := by
  cases v with
  | «class» cls => exact ((h.line hv).1 c hc).1
  | «instance» object => exact ((h.line (h.cls object hv)).1 c hc).1
  | _ => cases hc

theorem Fits.contains {s : Store} (h : k.Fits P s) (hv : s.Contains v) : k.Has v := by
  rcases hv with ⟨f, name, hv⟩ | ⟨object, name, hv⟩
  · exact h.values f name v hv
  · exact h.fields object name v hv

end Census

/-! ## Runs -/

/-- Where a run comes to a machine, the run has begun, or there is a moment that leaves it. -/
theorem Run.Reaches.moment {r : Run} {m : Machine} (h : r.Reaches m) :
    m = r.machine ∨ ∃ a, Moment.Follows r.setting (r.course.start r.machine) a ∧ a.head = m := by
  have hsince : ∀ {b : Moment Unit}, Moment.Follows r.setting (r.course.start r.machine) b →
      b.since = r.machine ∨ ∃ a, Moment.Follows r.setting (r.course.start r.machine) a ∧
        a.head = b.since := by
    intro b hb
    rcases Moment.since_eq_head hb with rfl | hhead
    · exact .inl rfl
    · exact .inr hhead
  cases h with
  | begun hbegun =>
      rcases hbegun.moment r.machine with ⟨β, next, below, hround⟩
      exact hsince hround
  | ended hbegun hends =>
      rcases hbegun.moment r.machine with ⟨β, next, below, hround⟩
      rcases hends with ⟨fuel, hperform⟩
      exact hsince (hround.trans (Moment.follows_of_perform hperform))
  | done hends =>
      rcases hends.follows r.machine .nothing with ⟨since, hlast⟩
      exact .inr ⟨_, hlast, rfl⟩

/-- A value that a run comes to is in the store it begins on, or is shown at some moment. -/
theorem Run.Meets.moment {r : Run} {v : Value} (h : r.Meets v) : r.machine.store.Contains v ∨
    ∃ a, Moment.Follows r.setting (r.course.start r.machine) a ∧ a.Shows v := by
  cases h with
  | stored hreaches hv =>
      rcases hreaches.moment with rfl | ⟨a, ha, rfl⟩
      · exact .inl hv
      · refine .inr ⟨a, ha, ?_⟩
        intro P k hcounted
        exact hcounted.course.fits.contains hv
  | @result frame e m m' v hbegun hends =>
      rcases hbegun.moment r.machine with ⟨β, next, below, hround⟩
      rcases hends with ⟨fuel, hperform⟩
      have hgiven : ∃ since, Moment.Follows r.setting
          (.ofRound r.setting (.evaluate frame e) m next below)
          ⟨_, since, .ended (.ok (some v)) m', .round (.evaluate frame e) next below⟩ :=
        Moment.follows_given hperform
      rcases hgiven with ⟨since, hgiven⟩
      refine .inr ⟨_, hround.trans hgiven, ?_⟩
      intro P k hcounted
      exact hcounted.course.2 _ rfl v rfl

theorem Eval.counted_interpret {setting : Setting} {P : ClassDecl → Prop} {frame : FrameId}
    {ss : List Stmt} : ∀ {k : Census} {m : Machine}, k.Fits P m.store →
      (interpret frame ss).Counted setting P k m fun _ _ => True := by
  induction ss with
  | nil =>
      intro k m h
      exact .pure h trivial
  | cons s ss ih =>
      intro k m h
      rw [interpret]
      refine (counted_execute h).bind ?_
      intro _ m₁ l₁ _ h₁ _
      exact ih h₁

namespace World.Explains

variable {W : World} {r : Run} {P : ClassDecl → Prop} {k : Census}

/-- While a run goes on, all that has been shown so far is listed. -/
theorem shown (h : W.Explains r)
    (hP : ∀ frame d m, r.Begins (.execute frame d.statement) m → P d)
    (hfits : k.Fits P r.machine.store) : ∃ l, k.Extends l ∧
      ∀ {n : Nat} {b : Moment Unit}, (r.course.start r.machine).after? r.setting n = some b →
        ∃ l', l.Extends l' ∧ b.Counted P l' ∧
          ∀ i ≤ n, ∀ a, (r.course.start r.machine).after? r.setting i = some a →
            ∀ v, a.Shows v → l'.Has v := by
  have hinterpret : (Eval.interpret r.setting.globals r.statements).Counted r.setting P k r.machine
      fun _ _ => True := Eval.counted_interpret hfits
  rcases hinterpret with ⟨l, hl, hcounted⟩
  have hstart : (r.course.start r.machine).Counted P l := ⟨hcounted, trivial⟩
  refine ⟨l, hl, hstart.shown ?_⟩
  intro b hb task m hasks frame d heq
  subst heq
  exact hP frame d m
    ((h.steady.follows r.course.closed_begins h.rises hb).course.asks _ m hasks)

/-- Two values that a run comes to are listed in one list. -/
theorem has_both (h : W.Explains r)
    (hP : ∀ frame d m, r.Begins (.execute frame d.statement) m → P d)
    (hfits : k.Fits P r.machine.store) {v v' : Value} (hv : k.Has v ∨ r.Meets v)
    (hv' : k.Has v' ∨ r.Meets v') : ∃ l : Census, l.Orderly P ∧ l.Has v ∧ l.Has v' := by
  rcases h.shown hP hfits with ⟨l, hl, hshown⟩
  -- A value that was listed before is taken to be shown at the first moment.
  have htime : ∀ {v : Value}, k.Has v ∨ r.Meets v → ∃ i a,
      (r.course.start r.machine).after? r.setting i = some a ∧ (k.Has v ∨ a.Shows v) := by
    intro v hv
    rcases hv with hv | hv
    · exact ⟨0, _, rfl, .inl hv⟩
    · rcases hv.moment with hv | ⟨a, ha, hshows⟩
      · exact ⟨0, _, rfl, .inl (hfits.contains hv)⟩
      · rcases ha.after with ⟨i, hi⟩
        exact ⟨i, a, hi, .inr hshows⟩
  have hhas : ∀ {n : Nat} {l' : Census}, l.Extends l' →
      (∀ i ≤ n, ∀ a, (r.course.start r.machine).after? r.setting i = some a →
        ∀ v, a.Shows v → l'.Has v) →
      ∀ {i : Nat} {a : Moment Unit} {v : Value}, i ≤ n →
        (r.course.start r.machine).after? r.setting i = some a → k.Has v ∨ a.Shows v → l'.Has v := by
    intro n l' hl' hall i a v hi ha hv
    rcases hv with hv | hv
    · exact hv.extends (hl.trans hl')
    · exact hall i hi a ha v hv
  rcases htime hv with ⟨i, a, ha, hv⟩
  rcases htime hv' with ⟨j, b, hb, hv'⟩
  -- The list of the later moment has both.
  rcases Nat.le_total i j with hle | hle
  · rcases hshown hb with ⟨l', hl', hcounted, hall⟩
    exact ⟨l', hcounted.course.fits.toOrderly, hhas hl' hall hle ha hv,
      hhas hl' hall (Nat.le_refl j) hb hv'⟩
  · rcases hshown ha with ⟨l', hl', hcounted, hall⟩
    exact ⟨l', hcounted.course.fits.toOrderly, hhas hl' hall (Nat.le_refl i) ha hv,
      hhas hl' hall hle hb hv'⟩

/-- Wherever a run comes to, a list fits. -/
theorem census_at (h : W.Explains r)
    (hP : ∀ frame d m, r.Begins (.execute frame d.statement) m → P d)
    (hfits : k.Fits P r.machine.store) {m : Machine} (hreaches : r.Reaches m) :
    ∃ l : Census, l.Fits P m.store := by
  rcases hreaches.moment with rfl | ⟨a, ha, rfl⟩
  · exact ⟨k, hfits⟩
  · rcases h.shown hP hfits with ⟨l, -, hshown⟩
    rcases ha.after with ⟨n, hn⟩
    rcases hshown hn with ⟨l', -, hcounted, -⟩
    exact ⟨l', hcounted.course.fits⟩

/-- When a run has ended, all values that it has come to are listed. -/
theorem census (h : W.Explains r)
    (hP : ∀ frame d m, r.Begins (.execute frame d.statement) m → P d)
    (hfits : k.Fits P r.machine.store) {result : Except Fault Unit} {m : Machine}
    (hends : r.course.Ends r.setting result m) :
    ∃ l, k.Extends l ∧ l.Fits P m.store ∧ ∀ v, r.Meets v → l.Has v := by
  rcases h.shown hP hfits with ⟨l, hl, hshown⟩
  rcases hends.follows r.machine .nothing with ⟨since, hlast⟩
  rcases hlast.after with ⟨n, hn⟩
  rcases hshown hn with ⟨l', hl', hcounted, hall⟩
  refine ⟨l', hl.trans hl', hcounted.course.1, ?_⟩
  intro v hv
  rcases hv.moment with hv | ⟨a, ha, hshows⟩
  · exact (hfits.contains hv).extends (hl.trans hl')
  · rcases ha.after with ⟨i, hi⟩
    exact hall i (Moment.le_of_after hn rfl hi) a hi v hshows

end World.Explains

/-! ## Sessions -/

/-- A run executes a class declaration. -/
def Run.Executes (r : Run) (d : ClassDecl) : Prop :=
  ∃ frame m, r.Begins (.execute frame d.statement) m

namespace Session

variable {runs : List Run} {s : Session} {clock : Nat → Except String Float} {text : List Char}
  {r : Run} {P : ClassDecl → Prop}

theorem census_empty : (⟨[none], []⟩ : Census).Fits P Session.empty.machine.store := by
  -- The only number that has been taken is that of the clock.
  have hnone : ∀ c, ¬(⟨[none], []⟩ : Census).HasClass c := by
    intro c hc
    rcases List.getElem?_eq_some_iff.mp hc with ⟨hlt, heq⟩
    have hzero : c.id = 0 := Nat.lt_one_iff.mp hlt
    simp only [hzero] at heq
    cases heq
  refine ⟨⟨fun c hc => absurd hc (hnone c), fun c hc => absurd hc (hnone c), ?_⟩, rfl, rfl, ?_, ?_⟩
  · intro object hobject
    cases hobject
  · intro f name v hv
    have hmem := Bindings.mem_of_value? hv
    cases f with
    | zero =>
        rw [show Session.empty.machine.store.bindings 0 = [("clock", .native 0)] from rfl,
          List.mem_singleton] at hmem
        cases hmem
        trivial
    | succ f => cases hmem
  · intro object name v hv
    cases hv

/-- All classes and instances that the runs of a session have come to can be listed. So could those
that were there when a run was begun. -/
theorem History.census (h : History runs s) {W : World} (hholds : W.Holds runs)
    (hroot : W.root = s.globals) (hP : ∀ r ∈ runs, ∀ d, r.Executes d → P d) :
    ∃ k : Census, k.Fits P s.machine.store ∧ ∀ r ∈ runs,
      (∀ v, r.Meets v → k.Has v) ∧ ∃ l : Census, l.Fits P r.machine.store := by
  induction h with
  | empty =>
      exact ⟨_, census_empty, fun r hr => nomatch hr⟩
  | resetError _ ih =>
      exact ih hholds hroot hP
  | @run runs s s' fuel clock text answer hhistory hrun ih =>
      rcases run?_cases hrun with ⟨hnone, rfl⟩ | ⟨r, m, result, hadFault, hsome, hends, rfl⟩
      · rw [hnone, Option.toList_none, List.append_nil] at hholds hP ⊢
        exact ih hholds hroot hP
      · rw [hsome, Option.toList_some] at hholds hP ⊢
        rcases ih hholds.left hroot fun r' hr' => hP r' (List.mem_append_left _ hr') with
          ⟨k, hfits, hhas⟩
        rw [← (accepts_of_running? hsome).machine] at hfits
        have hexplains : W.Explains r := hhistory.explains hsome hholds hroot
        have hexecutes : ∀ frame d m, r.Begins (.execute frame d.statement) m → P d :=
          fun frame d m hbegun =>
            hP r (List.mem_append_right _ List.mem_cons_self) d ⟨frame, m, hbegun⟩
        rcases hexplains.census hexecutes hfits hends with ⟨l, hl, hfits', hmeets⟩
        refine ⟨l, hfits', ?_⟩
        intro r' hr'
        rcases List.mem_append.mp hr' with hr' | hr'
        · rcases hhas r' hr' with ⟨hhas', hbegun⟩
          exact ⟨fun v hv => (hhas' v hv).extends hl, hbegun⟩
        · rw [List.mem_singleton] at hr'
          subst hr'
          exact ⟨hmeets, k, hfits⟩

/-- Two values that the runs of a session come to, that of the run at hand included, are listed in one
list. -/
theorem History.has_both (h : History runs s) (hr : s.running? clock text = some r) {v v' : Value}
    (hv : ∃ r₀ ∈ runs ++ [r], r₀.Meets v) (hv' : ∃ r₀ ∈ runs ++ [r], r₀.Meets v') :
    ∃ k : Census, k.Orderly (fun d => ∃ r₀ ∈ runs ++ [r], r₀.Executes d) ∧ k.Has v ∧ k.Has v' := by
  have hexecutes : ∀ r₀ ∈ runs, ∀ d, r₀.Executes d → ∃ r₁ ∈ runs ++ [r], r₁.Executes d :=
    fun r₀ hr₀ d hd => ⟨r₀, List.mem_append_left _ hr₀, hd⟩
  rcases h.census (h.holds hr).left rfl hexecutes with ⟨k, hfits, hhas⟩
  rw [← (accepts_of_running? hr).machine] at hfits
  have hwhen : ∀ {v : Value}, (∃ r₀ ∈ runs ++ [r], r₀.Meets v) → k.Has v ∨ r.Meets v := by
    rintro v ⟨r₀, hr₀, hmeets⟩
    rcases List.mem_append.mp hr₀ with hr₀ | hr₀
    · exact .inl ((hhas r₀ hr₀).1 v hmeets)
    · rw [List.mem_singleton] at hr₀
      subst hr₀
      exact .inr hmeets
  refine (h.explains_ofRuns hr).has_both ?_ hfits (hwhen hv) (hwhen hv')
  intro frame d m hbegun
  exact ⟨r, List.mem_append_right _ List.mem_cons_self, frame, m, hbegun⟩

/-- A class that is there has got its number, so a class that is made later gets a greater one. -/
theorem History.id_lt_nextId (h : History runs s) (hr : s.running? clock text = some r) {r₀ : Run}
    (hr₀ : r₀ ∈ runs ++ [r]) {m : Machine} (hreaches : r₀.Reaches m) {v : Value} {c : Class}
    (hv : m.store.Contains v) (hc : c ∈ v.line) : c.id < m.store.nextId := by
  rcases h.census (P := fun _ => True) (h.holds hr).left rfl fun _ _ _ _ => trivial with
    ⟨k, hfits, hruns⟩
  have hbegun : ∃ l : Census, l.Fits (fun _ => True) r₀.machine.store := by
    rcases List.mem_append.mp hr₀ with hr₀ | hr₀
    · exact (hruns r₀ hr₀).2
    · rw [List.mem_singleton] at hr₀
      rw [hr₀, (accepts_of_running? hr).machine]
      exact ⟨k, hfits⟩
  rcases hbegun with ⟨l, hl⟩
  rcases (h.explains_mem hr hr₀).census_at (fun _ _ _ _ => trivial) hl hreaches with ⟨l', hl'⟩
  rw [← hl'.nextId]
  exact (hl'.hasClass_of_mem_line (hl'.contains hv) hc).lt

/-- Whatever class a session comes to, the numbers get smaller along its line, from each class to its
superclass, so the line comes back to no class. Numbers are given in order: a class that a store holds
has a number below the next one. Each class of the line was made by a declaration and has the methods
of that declaration, of two with one name the last one. The method that a class has under a name is
that of the nearest class of the line which declares the name, if one does. No other class that the
session comes to at any time has the same number. -/
theorem History.classes_descend (h : History runs s) (hr : s.running? clock text = some r)
    {v : Value} {c : Class} (hv : ∃ r₀ ∈ runs ++ [r], r₀.Meets v) (hc : c ∈ v.line) :
    c.line.Pairwise (fun k p => p.id < k.id) ∧
      (∀ k ∈ c.line, ∃ r₀ ∈ runs ++ [r], ∃ d frame, r₀.Executes d ∧ k.name = d.name.name ∧
        ∀ name, k.methods.value? name = (d.method? name).map fun method =>
          ⟨method, frame, method.name.name == initializerName⟩) ∧
      (∀ name, c.method? name = c.line.findSome? fun k => k.methods.value? name) ∧
      (∀ r₀ ∈ runs ++ [r], ∀ m, r₀.Reaches m → m.store.Contains v → c.id < m.store.nextId) ∧
      ∀ v' c', (∃ r₀ ∈ runs ++ [r], r₀.Meets v') → c' ∈ v'.line → c'.id = c.id → c' = c := by
  refine ⟨?_, ?_, c.method?_eq_findSome?,
    fun r₀ hr₀ m hreaches hcontains => h.id_lt_nextId hr hr₀ hreaches hcontains hc, ?_⟩
  · rcases h.has_both hr hv hv with ⟨k, horderly, hhas, -⟩
    exact (horderly.line (horderly.hasClass_of_mem_line hhas hc)).2
  · rcases h.has_both hr hv hv with ⟨k, horderly, hhas, -⟩
    intro c' hc'
    have hclass := ((horderly.line (horderly.hasClass_of_mem_line hhas hc)).1 c' hc').1
    rcases horderly.declared c' hclass with ⟨d, ⟨r₀, hr₀, hd⟩, hname, frame, hmethods⟩
    refine ⟨r₀, hr₀, d, frame, hd, hname, ?_⟩
    intro name
    rw [hmethods]
    exact Eval.value?_closeMethods frame d name
  · intro v' c' hv' hc' heq
    rcases h.has_both hr hv hv' with ⟨k, horderly, hhas, hhas'⟩
    exact (horderly.hasClass_of_mem_line hhas' hc').unique (horderly.hasClass_of_mem_line hhas hc) heq

/-- The class that inherits, when an instance of it has been made. -/
theorem classes_descend_inheritingRun :
    inheritingValue.line.Pairwise (fun k p => p.id < k.id) ∧
      inheritingValue.method? "m" = inheritingValue.line.findSome? fun k => k.methods.value? "m" := by
  have hmeets : inheritingRun.Meets (.instance ⟨0, inheritingValue⟩) :=
    .stored (.begun begins_inheritingRun) (.inl ⟨2, "this", rfl⟩)
  have hdescend := History.empty.classes_descend running?_inheritingRun
    ⟨inheritingRun, by simp, hmeets⟩ (c := inheritingValue) List.mem_cons_self
  exact ⟨hdescend.1, hdescend.2.2.1 "m"⟩

end Session

end Lox
