import Lox.Proofs.Arena.Text
import Lox.Proofs.Session.Receiver

/-!
# Handles are identities

A session keeps one arena for all its texts. What it has for an expression, a statement or a function
is the handle, so a handle must stand for one node and a node must stand at one place.

* `Session.Stored` gives the arena of a session, and the handles of the statements of its runs.
* `Arena.Identifies` says that these are the roots of a forest whose trees are the programs.

Main statement: `Session.Stored.handles_identify`.
-/

namespace Lox

/-! ## What values hold -/

/-- The methods of a class and of the classes it inherits from. -/
def Class.closures : Class → List Closure
  | .root _ _ methods => methods.map Prod.snd
  | .derived _ _ methods superclass => methods.map Prod.snd ++ superclass.closures

/-- The functions that a value holds. -/
def Value.closures : Value → List Closure
  | .function _ closure => [closure]
  | .class cls => cls.closures
  | .instance object => object.cls.closures
  | _ => []

/-- A value is bound in a frame or is a field of an instance. -/
def Store.Contains (s : Store) (v : Value) : Prop :=
  (∃ f name, s.value? f name = some v) ∨ ∃ object name, s.field? object name = some v

/-- A value that a run comes to. -/
inductive Run.Meets (r : Run) : Value → Prop
  | stored {m : Machine} {v : Value} : r.Reaches m → m.store.Contains v → Meets r v
  | result {frame : FrameId} {e : Expr} {m m' : Machine} {v : Value} :
      r.Begins (.evaluate frame e) m → (Task.evaluate frame e).Ends r.setting m (.ok v) m' →
        Meets r v

namespace World

variable {W : World} {s : Store} {v : Value} {c : Closure}

theorem ClassFits.declares {cls : Class} (h : W.ClassFits s cls) :
    ∀ c ∈ cls.closures, W.Declares c.declaration := by
  have hentries : ∀ {methods : Bindings Closure}, (∀ entry ∈ methods, W.EntryFits s entry) →
      ∀ c ∈ methods.map Prod.snd, W.Declares c.declaration := by
    intro methods hmethods c hc
    rcases List.mem_map.mp hc with ⟨entry, hentry, rfl⟩
    rcases hmethods entry hentry with ⟨-, -, d, scopes, -, hknows⟩
    exact hknows.declared
  induction cls with
  | root id name methods =>
      exact hentries h
  | derived id name methods superclass ih =>
      exact List.forall_mem_append.mpr ⟨hentries h.1, ih h.2⟩

/-- The functions of a value that fits were declared. -/
theorem Fits.declares (h : W.Fits s v) : ∀ c ∈ v.closures, W.Declares c.declaration := by
  cases v with
  | function id closure =>
      rcases h with ⟨⟨owner, scopes, -, hknows⟩, -⟩
      exact List.forall_mem_singleton.mpr hknows.declared
  | «class» cls => exact ClassFits.declares h
  | «instance» object => exact h.cls.declares
  | _ => exact fun c hc => nomatch hc

theorem StoreFits.contains (h : W.StoreFits s) (hv : s.Contains v) : W.Fits s v := by
  rcases hv with ⟨f, name, hv⟩ | ⟨object, name, hv⟩
  · exact h.values f name v hv
  · exact h.fields object name v hv

theorem Explains.storeFits {r : Run} {m : Machine} (h : W.Explains r) (hreaches : r.Reaches m) :
    W.StoreFits m.store := by
  cases hreaches with
  | @begun task m hbegun =>
      have hbefore := h.before hbegun
      cases task with
      | evaluate frame e => exact hbefore.1
      | execute frame s => exact hbefore.1
  | @ended task m m' result hbegun hends =>
      have hafter := h.after hbegun hends
      cases task with
      | evaluate frame e => exact hafter.1
      | execute frame s => exact hafter.1
  | done hends => exact (h.ended hends).1

/-- The functions of a value that a run comes to were declared. -/
theorem Explains.declares {r : Run} (h : W.Explains r) (hv : r.Meets v) :
    ∀ c ∈ v.closures, W.Declares c.declaration := by
  cases hv with
  | stored hreaches hv => exact ((h.storeFits hreaches).contains hv).declares
  | result hbegun hends => exact ((h.after hbegun hends).2.2 v rfl).declares

end World

/-! ## Numbers that distances are recorded for -/

/-- A distance is recorded at most once for an expression. -/
theorem Stmt.sublist_expressions {ss : List Stmt} (herrors : (programFindings ss).errors = []) :
    ((programFindings ss).locals.map Prod.fst).Sublist
      ((expressions (partsAll ss)).map Expr.number) := by
  have hcovers : Covers (programFindings ss) (programVisits ss) := covers_resolveAll rfl [] ss
  have hexprs : (programVisits ss).map Visit.expr = expressions (partsAll ss) :=
    map_expr_visitsAll none [] ss
  have hvisits : ∀ v ∈ programVisits ss, v.findings.errors = [] := by
    intro v hv
    have hsubset := hcovers.errors v hv
    rw [herrors] at hsubset
    exact List.subset_nil.mp hsubset
  rw [hcovers.locals, ← hexprs]
  -- Nothing but the visits matters from here on: each records one distance or none.
  generalize programVisits ss = vs at hvisits
  induction vs with
  | nil =>
      exact .refl _
  | cons v vs ih =>
      rcases List.forall_mem_cons.mp hvisits with ⟨hv, hvs⟩
      have hhead : (v.findings.locals.map Prod.fst).Sublist [v.expr.number] := by
        rw [Visit.locals_of_errors hv]
        cases v.distance? with
        | none => exact List.nil_sublist _
        | some d => exact .refl _
      rw [List.flatMap_cons, List.map_append]
      exact hhead.append (ih hvs)

namespace Arena

/-! ## The forest of the programs -/

/-- A handle is reached from statements by following what nodes hold. -/
def Reaches (a : Arena) (roots : List (List Index)) (h : Handle) : Prop :=
  ∃ i ∈ roots.flatten, Relation.ReflTransGen a.Holds (.statement i) h

/-- The handles of an arena are the identities of the nodes: each was added once, behind the handles
that its node holds. From the statements of programs they are reached at most once, in one program,
and what is reached are the trees of the programs. -/
structure Identifies (a : Arena) (programs : List (List Stmt)) (roots : List (List Index)) :
    Prop where
  nodup : a.added.Nodup
  mem_iff : ∀ h, h ∈ a.added ↔ h.number < a.size h
  before : ∀ h hs, a.children? h = some hs → ∀ h' ∈ hs,
    h'.number < a.size h' ∧ [h, h'].Sublist a.added
  shows : List.Forall₂ a.ShowsAll roots programs
  once : ∃ visits : List (List Handle),
    List.Forall₂ (fun is met => a.Walks (is.map .statement) met) roots visits ∧ visits.flatten.Nodup

/-- The handles that stand for nodes elsewhere: distances are recorded for different expressions of the
programs, and the functions of the values at hand are functions of the programs. -/
structure Serves (a : Arena) (programs : List (List Stmt)) (roots : List (List Index))
    (locals : Locals) (AtHand : Value → Prop) : Prop extends a.Identifies programs roots where
  distances : (locals.map Prod.fst).Nodup
  references : ∀ entry ∈ locals, entry.1 < a.expressions.size ∧
    a.Reaches roots (.expression (.ofNat entry.1))
  functions : ∀ v, AtHand v → ∀ c ∈ v.closures,
    ∃ f, a.ShowsRoutine f c.declaration ∧ a.Reaches roots (.function f)

/-- What is known of an arena that programs have been read into. -/
structure Stores (a : Arena) (programs : List (List Stmt)) (roots : List (List Index)) : Prop where
  built : a.Built
  shows : List.Forall₂ a.ShowsAll roots programs
  forest : a.Forest (roots.flatten.map .statement)

variable {a b : Arena} {programs : List (List Stmt)} {roots : List (List Index)} {h : Handle}

theorem showsAll_flatten (h : List.Forall₂ a.ShowsAll roots programs) :
    a.ShowsAll roots.flatten programs.flatten := by
  induction h with
  | nil => exact rfl
  | cons h _ ih => exact h.append ih

namespace Stores

theorem empty : Stores .empty [] [] :=
  ⟨.empty, .nil, .empty _⟩

/-- The programs stay as they are while nodes are added. -/
theorem grows (h : a.Stores programs roots) (hg : a.Grows b) (hb : b.Built) :
    b.Stores programs roots :=
  ⟨hb, h.shows.imp fun _ ss hss => hss.grows hg ss, h.forest.grows hg⟩

theorem identifies (h : a.Stores programs roots) (hsmall : a.count < UInt32.size) :
    a.Identifies programs roots := by
  have hordered := h.built.ordered hsmall
  refine ⟨hordered.nodup, ?_, ?_, h.shows, ?_⟩
  · intro h'
    rw [hordered.mem_iff, has_iff]
  · intro h' hs hchildren part hpart
    have hbefore := hordered.before h' hs hchildren part hpart
    refine ⟨?_, hbefore⟩
    rw [← has_iff, ← hordered.mem_iff]
    exact hbefore.subset (List.mem_cons_of_mem _ List.mem_cons_self)
  · rcases h.forest with ⟨met, hwalks, hnodup⟩
    rw [List.map_flatten] at hwalks
    rcases hwalks.of_flatten with ⟨visits, hvisits, rfl⟩
    exact ⟨visits, List.forall₂_map_left_iff.mp hvisits, hnodup⟩

/-- What a forest consists of, and its closure under holding. -/
theorem reached (h : a.Stores programs roots) :
    ∃ met, a.Closed met ∧ (∀ i ∈ roots.flatten, .statement i ∈ met) ∧
      ∀ h, h ∈ met → a.Reaches roots h := by
  rcases h.forest with ⟨met, hwalks, -⟩
  refine ⟨met, fun h h' hh hholds => hwalks.closed hh hholds, ?_, ?_⟩
  · intro i hi
    exact hwalks.roots_subset (List.mem_map_of_mem hi)
  · intro h' hh
    rcases hwalks.mem_iff.mp hh with ⟨root, hroot, hreach⟩
    rcases List.mem_map.mp hroot with ⟨i, hi, rfl⟩
    exact ⟨i, hi, hreach⟩

/-- A function that the programs declare has a node that is reached from their statements. -/
theorem declared (h : a.Stores programs roots) {W : World} {r : FunctionDecl}
    (hW : W.statements = Stmt.partsAll programs.flatten) (hr : W.Declares r) :
    ∃ f, a.ShowsRoutine f r ∧ a.Reaches roots (.function f) := by
  rcases h.reached with ⟨met, hclosed, hroots, hreaches⟩
  have hparts := ShowsAll.parts_met hclosed programs.flatten (showsAll_flatten h.shows) hroots
  rw [← hW] at hparts
  rcases hr with hr | ⟨d, hd, hr⟩
  · rcases hparts _ hr with ⟨i, ⟨f, hnode, hf⟩, hi⟩
    exact ⟨f, hf, hreaches _ (hclosed.statement hi hnode List.mem_cons_self)⟩
  · rcases hparts _ hd with ⟨i, ⟨x?, fs, hnode, -, hfs⟩, hi⟩
    rcases hfs.exists_of_mem hr with ⟨f, hmem, hf⟩
    refine ⟨f, hf, hreaches _ (hclosed.statement hi hnode ?_)⟩
    exact List.mem_append_right _ (List.mem_map_of_mem hmem)

/-- The expressions of the programs are reached under their numbers. -/
theorem expressions (h : a.Stores programs roots) (hsmall : a.expressions.size < UInt32.size) :
    ∀ e ∈ Stmt.expressions (Stmt.partsAll programs.flatten),
      a.Reaches roots (.expression e.index) := by
  rcases h.reached with ⟨met, hclosed, hroots, hreaches⟩
  have hparts := ShowsAll.parts_met hclosed programs.flatten (showsAll_flatten h.shows) hroots
  exact fun e he => hreaches _ (expressions_met hclosed hsmall hparts e he)

end Stores

end Arena

namespace Session

/-- The handles of the statements of a text that is accepted. -/
def roots? (s : Session) (a : Arena) (text : List Char) : Option (List Index) :=
  match (s.chunk text).outcome with
  | .error _ => none
  | .ok _ => (a.readText (byteLength s.text) text).2.toOption

/-- The runs that have led to a session, each with the handles of its statements, and the arena. Every
text is read into the arena, also one that is rejected. -/
inductive Stored : List Run → List (List Index) → Session → Arena → Prop
  | empty : Stored [] [] .empty .empty
  | resetError {runs : List Run} {roots : List (List Index)} {s : Session} {a : Arena} :
      Stored runs roots s a → Stored runs roots s.resetError a
  | run {runs : List Run} {roots : List (List Index)} {s s' : Session} {a : Arena} {fuel : Nat}
      {clock : Nat → Except String Float} {text : List Char} {answer : Answer} :
      Stored runs roots s a → s.run? fuel clock text = some (s', answer) →
        Stored (runs ++ (s.running? clock text).toList) (roots ++ (s.roots? a text).toList) s'
          (a.readText (byteLength s.text) text).1

variable {runs : List Run} {roots : List (List Index)} {s : Session} {a : Arena}
  {clock : Nat → Except String Float} {text : List Char} {r : Run}

theorem Stored.history (h : Stored runs roots s a) : History runs s := by
  induction h with
  | empty => exact .empty
  | resetError _ ih => exact .resetError ih
  | run _ hrun ih => exact .run ih hrun

/-- What is known of the arena of a session. -/
structure Keep (runs : List Run) (roots : List (List Index)) (s : Session) (a : Arena) : Prop where
  stores : a.Stores (runs.map Run.statements) roots
  size : a.expressions.size = s.nextId
  count : a.count ≤ byteLength s.text

theorem Keep.empty : Keep [] [] .empty .empty :=
  ⟨.empty, rfl, Nat.le_refl _⟩

/-- The programs before a text stay, and those of the text are added if it is accepted. -/
theorem Keep.read (h : Keep runs roots s a) (clock : Nat → Except String Float)
    (hsmall : byteLength (s.text ++ text) < UInt32.size) :
    a.Grows (a.readText (byteLength s.text) text).1 ∧
      Keep (runs ++ (s.running? clock text).toList) (roots ++ (s.roots? a text).toList)
        (s.append text (s.chunk text).nextId) (a.readText (byteLength s.text) text).1 := by
  have hcount := h.count
  have hbytes : byteLength (s.text ++ text) = byteLength s.text + byteLength text :=
    byteLength_append _ _
  -- The nodes of the text fit into the array, since there are no more of them than bytes.
  have htakes : a.Takes (roots.flatten.map .statement) text
      (.ofText (byteLength s.text) a.expressions.size text)
      (a.readText (byteLength s.text) text).1 (a.readText (byteLength s.text) text).2 :=
    Arena.readText_agrees h.stores.built h.stores.forest (by omega)
  rw [h.size] at htakes
  refine ⟨htakes.grows, ?_, htakes.size, ?_⟩
  · have hstores := h.stores.grows htakes.grows htakes.built
    have hshows := htakes.shows
    unfold running? roots? chunk Chunk.ofText
    dsimp only
    cases hread : (Reading.ofText (byteLength s.text) s.nextId text).outcome with
    | error errors =>
        simpa using hstores
    | ok statements =>
        cases hresult : (a.readText (byteLength s.text) text).2 with
        | error errors =>
            rw [hread, hresult] at hshows
            exact hshows.elim
        | ok is =>
            rw [hread, hresult] at hshows
            cases hresolve : resolveProgram statements with
            | error errors =>
                simpa [hresolve] using hstores
            | ok locals =>
                simp only [hresolve]
                rw [Option.toList_some, List.map_append, List.map_singleton]
                refine ⟨htakes.built, ?_, ?_⟩
                · exact List.rel_append hstores.shows (.cons hshows.1 .nil)
                · -- The new roots were put in front, but for a forest the order of the trees does
                  -- not matter.
                  refine hshows.2.perm ?_
                  change List.Perm _ ((roots ++ [is]).flatten.map _)
                  rw [List.flatten_append, List.flatten_singleton, List.map_append]
                  exact List.perm_append_comm
  · have hle := htakes.count
    change _ ≤ byteLength (s.text ++ text)
    omega

/-- A session and its arena go together as long as the bytes of the texts can be counted. -/
theorem Stored.keep (h : Stored runs roots s a) (hsmall : byteLength s.text < UInt32.size) :
    Keep runs roots s a := by
  induction h with
  | empty => exact .empty
  | resetError _ ih =>
      have hkeep := ih hsmall
      exact ⟨hkeep.stores, hkeep.size, hkeep.count⟩
  | @run runs roots s s' a fuel clock text answer _ hrun ih =>
      have hfields : s'.text = s.text ++ text ∧ s'.nextId = (s.chunk text).nextId := by
        rcases run?_cases hrun with ⟨-, rfl⟩ | ⟨_, _, _, _, -, -, rfl⟩
        · exact ⟨rfl, rfl⟩
        · exact ⟨rfl, rfl⟩
      rw [hfields.1] at hsmall
      -- The text before was shorter, so its bytes could be counted as well.
      have hbefore : byteLength s.text < UInt32.size :=
        Nat.lt_of_le_of_lt (byteLength_le_append _ _) hsmall
      have hread := ((ih hbefore).read clock hsmall).2
      refine ⟨hread.stores, hread.size.trans hfields.2.symm, ?_⟩
      rw [hfields.1]
      exact hread.count

/-- A session and its arena serve what the programs that have been accepted need. -/
theorem Keep.serves {locals : Locals} {AtHand : Value → Prop} (h : Keep runs roots s a)
    (hsmall : byteLength s.text < UInt32.size) (globals : FrameId)
    (hread : Stmt.ReadAll 0 s.nextId (Stmt.partsAll (Run.programOf runs)))
    (herrors : (Stmt.programFindings (Run.programOf runs)).errors = [])
    (hlocals : locals = (Stmt.programFindings (Run.programOf runs)).locals)
    (hdeclares : ∀ v, AtHand v → ∀ c ∈ v.closures,
      (World.ofRuns runs globals).Declares c.declaration) :
    a.Serves (runs.map Run.statements) roots locals AtHand := by
  have hcount := h.count
  have hle : a.expressions.size ≤ a.count := by
    unfold Arena.count
    omega
  -- The recorded numbers are among the numbers of the expressions, which reading gave out once each.
  have hnumbers := Stmt.sublist_expressions herrors
  rw [← hlocals] at hnumbers
  refine ⟨h.stores.identifies (by omega), hnumbers.nodup hread.expressions.fresh.1, ?_, ?_⟩
  · intro entry hentry
    have hmem := hnumbers.subset (List.mem_map_of_mem hentry)
    refine ⟨?_, ?_⟩
    · rw [h.size]
      exact (hread.expressions.fresh.2 _ hmem).2
    · rcases List.mem_map.mp hmem with ⟨e, he, hnumber⟩
      rw [← hnumber]
      exact h.stores.expressions (by omega) e he
  · intro v hv c hc
    exact h.stores.declared rfl (hdeclares v hv c hc)

/-- In a session of less than 2 ^ 32 bytes a handle stands for one node, which never changes, and each
node of a program that was accepted stands at one place of one program. So distances are recorded for
different expressions, and whatever function a value holds has a node, between runs and in them. -/
theorem Stored.handles_identify (h : Stored runs roots s a) (hsmall : byteLength s.text < UInt32.size) :
    a.Serves (runs.map Run.statements) roots s.locals s.machine.store.Contains ∧
    ∀ text, byteLength (s.text ++ text) < UInt32.size →
      let b := (a.readText (byteLength s.text) text).1
      a.Grows b ∧ ∀ clock r, s.running? clock text = some r →
        ∃ is, s.roots? a text = some is ∧
          b.Serves ((runs ++ [r]).map Run.statements) (roots ++ [is]) r.setting.locals r.Meets := by
  have hkeep := h.keep hsmall
  have hkeeps := h.history.keeps
  refine ⟨?_, ?_⟩
  · refine hkeep.serves hsmall s.globals hkeeps.read hkeeps.errors hkeeps.locals ?_
    intro v hv
    have hfits := (h.history.fits h.history.holds_ofRuns rfl).1
    exact (hfits.contains hv).declares
  · intro text hsmall'
    refine ⟨(hkeep.read (fun _ => .error "") hsmall').1, ?_⟩
    intro clock r hr
    have hread := (hkeep.read clock hsmall').2
    rw [hr, Option.toList_some] at hread
    -- There are as many lists of handles as runs, so there is one for the run at hand.
    have hlength := hread.stores.shows.length_eq
    rw [List.length_map, List.length_append, List.length_append, hkeep.stores.shows.length_eq,
      List.length_map] at hlength
    cases hroots : s.roots? a text with
    | none =>
        rw [hroots] at hlength
        simp at hlength
    | some is =>
        rw [hroots, Option.toList_some] at hread
        rcases hkeeps.accept (accepts_of_running? hr) with ⟨haccepted, herrors, hlocals⟩
        exact ⟨is, rfl, hread.serves hsmall' s.globals haccepted herrors hlocals fun v hv =>
          (h.history.explains_ofRuns hr).declares hv⟩

theorem roots?_constructingRun :
    Session.empty.roots? .empty "class A\x7binit()\x7bthis;\x7d\x7dA().init();".toList =
      some [1, 2] := by
  decide +kernel

/-- The statement of the initializer was added before the class. -/
theorem handles_identify_constructingRun :
    (Arena.readText .empty 0 "class A\x7binit()\x7bthis;\x7d\x7dA().init();".toList).1.Serves
      [constructingRun.statements] [[1, 2]] [(0, 1)] constructingRun.Meets := by
  rcases Stored.empty.handles_identify (by decide) with ⟨-, htexts⟩
  rcases (htexts _ (by decide +kernel)).2 _ _ running?_constructingRun with ⟨is, hroots, hserves⟩
  rw [roots?_constructingRun, Option.some.injEq] at hroots
  rw [← hroots] at hserves
  exact hserves

end Session

end Lox
