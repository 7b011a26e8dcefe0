import Lox.Proofs.Parallel.Course
import Lox.Proofs.Parallel.Resolve

/-!
# A state and itself

Two runs may go on from one state. The functions that are stored there were resolved before, and both
runs have the same distances recorded for them, so the state is parallel to itself: every frame stands
for itself.

Main statement: `World.StoreFits.parallels`.
-/

namespace Lox

/-- Each of the frames that have been made stands for itself. -/
def Pairing.same (size : Nat) : Pairing := fun k f f' =>
  k = none ∧ f = f' ∧ f < size

theorem Pairing.mates_same {size : Nat} {f f' : FrameId} :
    (Pairing.same size).Mates f f' ↔ f = f' ∧ f < size := by
  constructor
  · rintro ⟨k, -, -, heq, hf⟩
    exact ⟨heq, hf⟩
  · rintro ⟨rfl, hf⟩
    exact ⟨none, fun h => (nomatch h), rfl, rfl, hf⟩

namespace World

variable {W : World} {T : Tracks} {s : Store} {owner : Option ClassDecl} {scopes : Scopes}
  {f : FrameId}

theorem Stands.homes (h : W.Stands s f owner scopes) : scopes.Homes owner := by
  intro d hd
  cases hd
  rcases h.home with ⟨near, hthis, hsuper⟩
  exact ⟨near, hthis, fun hparent => (hsuper hparent).1⟩

section Fits

variable (hrecords : T.Records id W.visits W.visits)

include hrecords

/-- What is recorded for the code of a routine has not changed. -/
theorem Knows.parallels {r : FunctionDecl} (h : W.Knows owner scopes r) (hhomes : scopes.Homes owner) :
    Stmt.ParallelsRoutine T none r r := by
  have hparallels := Stmt.parallels_renumberRoutine (T := T) (g := id) (.refl scopes) hhomes r
    h.parameters h.sound.sound
    ⟨fun v hv => hrecords.first v (h.visits v hv), fun v hv => hrecords.errors v (h.visits v hv),
      fun v hv => hrecords.second v (h.visits v hv)⟩
  have hsame : Stmt.relabelRoutine (.renumber id) r = r := Stmt.relabelRoutine_printing [] r
  rwa [hsame] at hparallels

theorem FunctionFits.parallels {c : Closure} (h : W.FunctionFits s c) :
    c.Parallels T (.same s.frames.size) c := by
  rcases h.1 with ⟨owner, scopes, hstands, hknows⟩
  exact ⟨rfl, none, fun h => (nomatch h), ⟨rfl, rfl, hstands.frames.inside⟩,
    hknows.parallels hrecords hstands.homes⟩

theorem MethodFits.parallels {c : Closure} (h : W.MethodFits s c) :
    c.Unbound T (.same s.frames.size) c := by
  rcases h.2 with ⟨d, scopes, hshelters, hknows⟩
  exact ⟨rfl, none, ⟨rfl, rfl, hshelters.frames.inside⟩,
    hknows.parallels hrecords (.enterClass scopes d)⟩

theorem ClassFits.parallels {cls : Class} (h : W.ClassFits s cls) :
    cls.Parallels T (.same s.frames.size) cls := by
  refine ⟨rfl, rfl, ?_⟩
  intro name
  cases hmethod : cls.method? name with
  | none => exact .none
  | some c => exact .some ((h.method hmethod).2.parallels hrecords)

theorem Fits.parallels {v : Value} (h : W.Fits s v) : v.Parallels T (.same s.frames.size) v := by
  cases v with
  | function id closure => exact .function (FunctionFits.parallels hrecords h)
  | «class» cls => exact .class (ClassFits.parallels hrecords h)
  | «instance» object => exact .instance ⟨rfl, ClassFits.parallels hrecords h.cls⟩
  | number x => exact .number x
  | string x => exact .string x
  | nil => exact .nil
  | boolean b => exact .boolean b
  | native id => exact .native id

theorem StoreFits.parallels (h : W.StoreFits s) : s.Parallels T (.same s.frames.size) s := by
  refine ⟨?_, ?_, ?_, ?_, ?_, ?_, ?_, rfl, ?_, rfl⟩
  · rintro k f f' ⟨-, rfl, hf⟩
    exact ⟨hf, hf⟩
  · rintro k f f' ⟨rfl, rfl, hf⟩
    rw [Hollow.without, List.forall₂_same]
    exact fun g hg => Pairing.mates_same.mpr ⟨rfl, (h.nested f hf g hg).1⟩
  · rintro i f f' ⟨heq, -, -⟩
    cases heq
  · intro f f' g g' hf hg
    rw [(Pairing.mates_same.mp hf).1, (Pairing.mates_same.mp hg).1]
  · intro f f' hmates name
    rw [← (Pairing.mates_same.mp hmates).1]
    cases hvalue : s.value? f name with
    | none => exact .none
    | some v => exact .some (Fits.parallels hrecords (h.values f name v hvalue))
  · intro f hmates name
    refine Store.value?_of_size_le (Nat.le_of_not_lt ?_)
    exact fun hf => hmates f (Pairing.mates_same.mpr ⟨rfl, hf⟩)
  · intro f hf
    exact ⟨f, Pairing.mates_same.mpr ⟨rfl, hf⟩⟩
  · intro o o' hid name
    have hfield : s.field? o' name = s.field? o name := by
      rw [Store.field?, Store.field?, hid]
    rw [hfield]
    cases hvalue : s.field? o name with
    | none => exact .none
    | some v => exact .some (Fits.parallels hrecords (h.fields o name v hvalue))

end Fits

end World

end Lox
