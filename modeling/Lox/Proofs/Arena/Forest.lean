import Mathlib.Data.List.Nodup
import Mathlib.Logic.Relation
import Lox.Arena.Basic

/-!
# Forests in an arena

Nodes are added after what they hold, so from any node the way down ends. Nodes from which the ways
down never meet are the roots of a forest: a new node that takes some of the roots as its parts is a
root in their place, and a root that is given up leaves its parts as roots.

* `Arena.Built` says that every node was added after its parts.
* `Arena.Walks` lists what is met on all ways down, each node as often as it is met.
* `Arena.Forest` says that nothing is met twice.
-/

namespace Lox

namespace Arena

variable {a b c : Arena} {h : Handle} {hs roots xs ys us vs : List Handle}

/-- There is a node for the handle. -/
def Has (a : Arena) (h : Handle) : Prop :=
  ∃ hs, a.children? h = some hs

/-- A node holds another one. -/
def Holds (a : Arena) (h h' : Handle) : Prop :=
  ∃ hs, a.children? h = some hs ∧ h' ∈ hs

/-- All nodes of an arena are in another one, at the same places. -/
structure Grows (a b : Arena) : Prop where
  expressions : ∀ (i : Nat) entry, a.expressions[i]? = some entry → b.expressions[i]? = some entry
  statements : ∀ (i : Nat) node, a.statements[i]? = some node → b.statements[i]? = some node
  functions : ∀ (i : Nat) routine, a.functions[i]? = some routine → b.functions[i]? = some routine

/-- Every node was added when there were nodes for all its parts. -/
inductive Built : Arena → Prop
  | empty : Built .empty
  | expression {a : Arena} {entry : ExprEntry} :
      Built a → (∀ h ∈ entry.node.children, a.Has h) → Built (a.pushExpression entry)
  | statement {a : Arena} {node : StmtNode} :
      Built a → (∀ h ∈ node.children, a.Has h) → Built (a.pushStatement node)
  | function {a : Arena} {routine : Routine Index} :
      Built a → (∀ i ∈ routine.body, a.Has (.statement i)) → Built (a.pushFunction routine)

/-- What is met on the ways down from nodes, in order. -/
inductive Walks (a : Arena) : List Handle → List Handle → Prop
  | nil : Walks a [] []
  | cons {h : Handle} {hs rest met : List Handle} :
      a.children? h = some hs → Walks a (hs ++ rest) met → Walks a (h :: rest) (h :: met)

/-- From the roots every node is met at most once. -/
def Forest (a : Arena) (roots : List Handle) : Prop :=
  ∃ met, a.Walks roots met ∧ met.Nodup

/-- One node more. -/
structure Pushes (a b : Arena) (new : Handle) (hs : List Handle) : Prop where
  fresh : a.children? new = none
  added : b.added = new :: a.added
  node : b.children? new = some hs
  others : ∀ h, h ≠ new → b.children? h = a.children? h

/-! ## More nodes -/

namespace Grows

theorem refl (a : Arena) : a.Grows a :=
  ⟨fun _ _ h => h, fun _ _ h => h, fun _ _ h => h⟩

theorem trans (hab : a.Grows b) (hbc : b.Grows c) : a.Grows c :=
  ⟨fun i e h => hbc.expressions i e (hab.expressions i e h),
    fun i n h => hbc.statements i n (hab.statements i n h),
    fun i r h => hbc.functions i r (hab.functions i r h)⟩

theorem children? (hg : a.Grows b) (hh : a.children? h = some hs) : b.children? h = some hs := by
  cases h with
  | expression i =>
      rcases Option.map_eq_some_iff.mp hh with ⟨entry, hentry, heq⟩
      exact Option.map_eq_some_iff.mpr ⟨entry, hg.expressions _ _ hentry, heq⟩
  | statement i =>
      rcases Option.map_eq_some_iff.mp hh with ⟨node, hnode, heq⟩
      exact Option.map_eq_some_iff.mpr ⟨node, hg.statements _ _ hnode, heq⟩
  | function i =>
      rcases Option.map_eq_some_iff.mp hh with ⟨routine, hroutine, heq⟩
      exact Option.map_eq_some_iff.mpr ⟨routine, hg.functions _ _ hroutine, heq⟩

end Grows

theorem getElem?_push_of_some {α : Type} {xs : Array α} {x y : α} {i : Nat}
    (h : xs[i]? = some x) : (xs.push y)[i]? = some x := by
  rcases Array.getElem?_eq_some_iff.mp h with ⟨hi, heq⟩
  rw [Array.getElem?_push_lt hi, heq]

theorem grows_pushExpression (a : Arena) (entry : ExprEntry) : a.Grows (a.pushExpression entry) :=
  ⟨fun _ _ h => getElem?_push_of_some h, fun _ _ h => h, fun _ _ h => h⟩

theorem grows_pushStatement (a : Arena) (node : StmtNode) : a.Grows (a.pushStatement node) :=
  ⟨fun _ _ h => h, fun _ _ h => getElem?_push_of_some h, fun _ _ h => h⟩

theorem grows_pushFunction (a : Arena) (routine : Routine Index) :
    a.Grows (a.pushFunction routine) :=
  ⟨fun _ _ h => h, fun _ _ h => h, fun _ _ h => getElem?_push_of_some h⟩

/-! ## Walks -/

namespace Walks

theorem grows (hw : a.Walks xs us) (hg : a.Grows b) : b.Walks xs us := by
  induction hw with
  | nil => exact .nil
  | cons hh _ ih => exact .cons (hg.children? hh) ih

theorem append (hx : a.Walks xs us) (hy : a.Walks ys vs) : a.Walks (xs ++ ys) (us ++ vs) := by
  induction hx with
  | nil =>
      exact hy
  | cons hh _ ih =>
      rw [List.append_assoc] at ih
      exact .cons hh ih

theorem of_append (hw : a.Walks (xs ++ ys) vs) :
    ∃ us ws, vs = us ++ ws ∧ a.Walks xs us ∧ a.Walks ys ws := by
  -- The roots are not a variable, so the induction is on a walk from any list that they are.
  generalize heq : xs ++ ys = zs at hw
  induction hw generalizing xs with
  | nil =>
      rcases List.append_eq_nil_iff.mp heq with ⟨rfl, rfl⟩
      exact ⟨[], [], rfl, .nil, .nil⟩
  | @cons h hs rest met hh hw ih =>
      cases xs with
      | nil =>
          rw [List.nil_append] at heq
          subst heq
          exact ⟨[], _, rfl, .nil, .cons hh hw⟩
      | cons x xs =>
          cases heq
          rcases ih (List.append_assoc hs xs ys) with ⟨us, ws, rfl, hx, hy⟩
          exact ⟨h :: us, ws, rfl, .cons hh hx, hy⟩

theorem of_cons {x : Handle} (hw : a.Walks (x :: xs) vs) :
    ∃ us ws, vs = us ++ ws ∧ a.Walks [x] us ∧ a.Walks xs ws := by
  have hw' : a.Walks ([x] ++ xs) vs := hw
  exact hw'.of_append

theorem of_flatten {xss : List (List Handle)} : ∀ {us}, a.Walks xss.flatten us →
    ∃ uss, List.Forall₂ a.Walks xss uss ∧ us = uss.flatten := by
  induction xss with
  | nil =>
      intro us hw
      cases hw
      exact ⟨[], .nil, rfl⟩
  | cons xs xss ih =>
      intro us hw
      rcases hw.of_append with ⟨us₁, us₂, rfl, hxs, hrest⟩
      rcases ih hrest with ⟨uss, hall, rfl⟩
      exact ⟨us₁ :: uss, .cons hxs hall, rfl⟩

theorem perm (hperm : xs.Perm ys) : ∀ {us}, a.Walks xs us → ∃ vs, us.Perm vs ∧ a.Walks ys vs := by
  induction hperm with
  | nil =>
      intro us hw
      exact ⟨us, .refl _, hw⟩
  | @cons x xs ys _ ih =>
      intro us hw
      rcases of_cons hw with ⟨us₁, us₂, rfl, hx, hrest⟩
      rcases ih hrest with ⟨vs, hperm, hys⟩
      exact ⟨us₁ ++ vs, hperm.append_left us₁, hx.append hys⟩
  | swap x y xs =>
      intro us hw
      rcases of_cons hw with ⟨us₁, us', rfl, hy, hrest⟩
      rcases of_cons hrest with ⟨us₂, us₃, rfl, hx, hxs⟩
      refine ⟨us₂ ++ (us₁ ++ us₃), ?_, hx.append (hy.append hxs)⟩
      rw [← List.append_assoc, ← List.append_assoc]
      exact List.perm_append_comm.append_right us₃
  | trans _ _ ih₁ ih₂ =>
      intro us hw
      rcases ih₁ hw with ⟨vs, hperm₁, hw₁⟩
      rcases ih₂ hw₁ with ⟨ws, hperm₂, hw₂⟩
      exact ⟨ws, hperm₁.trans hperm₂, hw₂⟩

theorem sublist (hsub : xs.Sublist ys) :
    ∀ {vs}, a.Walks ys vs → ∃ us, us.Sublist vs ∧ a.Walks xs us := by
  induction hsub with
  | slnil =>
      intro vs hw
      exact ⟨vs, List.Sublist.refl _, hw⟩
  | @cons xs ys y _ ih =>
      intro vs hw
      rcases of_cons hw with ⟨vs₁, vs₂, rfl, -, hrest⟩
      rcases ih hrest with ⟨us, hsub, hxs⟩
      exact ⟨us, hsub.trans (List.sublist_append_right _ _), hxs⟩
  | @cons_cons xs ys y _ ih =>
      intro vs hw
      rcases of_cons hw with ⟨vs₁, vs₂, rfl, hy, hrest⟩
      rcases ih hrest with ⟨us, hsub, hxs⟩
      exact ⟨vs₁ ++ us, hsub.append_left vs₁, hy.append hxs⟩

theorem roots_subset (hw : a.Walks xs us) : xs ⊆ us := by
  induction hw with
  | nil =>
      exact List.Subset.refl _
  | cons _ _ ih =>
      refine List.cons_subset_cons _ ?_
      exact List.Subset.trans (List.subset_append_right _ _) ih

theorem has (hw : a.Walks xs us) : ∀ h ∈ us, a.Has h := by
  induction hw with
  | nil =>
      intro h hh
      cases hh
  | cons hchildren _ ih =>
      intro h hh
      rcases List.mem_cons.mp hh with rfl | hh
      · exact ⟨_, hchildren⟩
      · exact ih h hh

/-- What is met by a walk, and all that it holds. -/
theorem closed (hw : a.Walks xs us) {h' : Handle} (hh : h ∈ us) (hholds : a.Holds h h') :
    h' ∈ us := by
  rcases hholds with ⟨hs, hchildren, hmem⟩
  induction hw with
  | nil =>
      cases hh
  | cons hchildren' hw ih =>
      refine List.mem_cons_of_mem _ ?_
      rcases List.mem_cons.mp hh with rfl | hh
      · -- The node at hand is the first of the walk, and its parts are the next roots.
        rw [hchildren] at hchildren'
        cases hchildren'
        exact hw.roots_subset (List.mem_append_left _ hmem)
      · exact ih hh

/-- A walk meets what can be reached from its roots. -/
theorem mem_iff (hw : a.Walks xs us) :
    h ∈ us ↔ ∃ root ∈ xs, Relation.ReflTransGen a.Holds root h := by
  constructor
  · intro hh
    -- Either the node is the first root, or it is reached from its parts or from the other roots.
    induction hw with
    | nil =>
        cases hh
    | @cons first hs rest met hchildren hw ih =>
        rcases List.mem_cons.mp hh with rfl | hh
        · exact ⟨h, List.mem_cons_self, .refl⟩
        · rcases ih hh with ⟨root, hroot, hreach⟩
          rcases List.mem_append.mp hroot with hroot | hroot
          · exact ⟨first, List.mem_cons_self, .head ⟨hs, hchildren, hroot⟩ hreach⟩
          · exact ⟨root, List.mem_cons_of_mem _ hroot, hreach⟩
  · rintro ⟨root, hroot, hreach⟩
    induction hreach with
    | refl => exact hw.roots_subset hroot
    | tail _ hholds ih => exact hw.closed ih hholds

end Walks

/-! ## Forests -/

namespace Forest

theorem empty (a : Arena) : a.Forest [] :=
  ⟨[], .nil, List.nodup_nil⟩

theorem grows (hf : a.Forest roots) (hg : a.Grows b) : b.Forest roots := by
  rcases hf with ⟨met, hw, hnodup⟩
  exact ⟨met, hw.grows hg, hnodup⟩

theorem perm (hf : a.Forest xs) (hperm : xs.Perm ys) : a.Forest ys := by
  rcases hf with ⟨us, hw, hnodup⟩
  rcases hw.perm hperm with ⟨vs, huv, hw'⟩
  exact ⟨vs, hw', huv.nodup_iff.mp hnodup⟩

/-- Roots may be given up, with all that they hold. -/
theorem sublist (hf : a.Forest ys) (hsub : xs.Sublist ys) : a.Forest xs := by
  rcases hf with ⟨vs, hw, hnodup⟩
  rcases hw.sublist hsub with ⟨us, husub, hw'⟩
  exact ⟨us, hw', hnodup.sublist husub⟩

/-- A root may be given up for its parts. -/
theorem release (hf : a.Forest (h :: roots)) (hh : a.children? h = some hs) :
    a.Forest (hs ++ roots) := by
  rcases hf with ⟨met, hw, hnodup⟩
  cases hw with
  | cons hchildren hw =>
      rw [hh] at hchildren
      cases hchildren
      exact ⟨_, hw, hnodup.of_cons⟩

theorem has (hf : a.Forest roots) : ∀ h ∈ roots, a.Has h := by
  rcases hf with ⟨met, hw, -⟩
  intro h hh
  exact hw.has h (hw.roots_subset hh)

/-- A new node is a root in place of its parts. -/
theorem push (hf : a.Forest (hs ++ roots)) (hp : a.Pushes b h hs) (hg : a.Grows b) :
    b.Forest (h :: roots) := by
  rcases hf with ⟨met, hw, hnodup⟩
  refine ⟨h :: met, .cons hp.node (hw.grows hg), List.nodup_cons.mpr ⟨?_, hnodup⟩⟩
  -- What is met has a node already, and the new one had none.
  intro hmem
  rcases hw.has h hmem with ⟨hs', hold⟩
  rw [hp.fresh] at hold
  cases hold

end Forest

/-! ## New nodes -/

theorem toNat_ofNat {n : Nat} (hsmall : n < UInt32.size) : (UInt32.ofNat n).toNat = n :=
  UInt32.toNat_ofNat_of_lt hsmall

theorem getElem?_push_of_ne {α : Type} (xs : Array α) (x : α) {i : Index}
    (hne : i ≠ .ofNat xs.size) : (xs.push x)[i.toNat]? = xs[i.toNat]? := by
  rw [Array.getElem?_push, if_neg]
  intro heq
  apply hne
  rw [← heq, UInt32.ofNat_toNat]

theorem pushes_expression (a : Arena) (entry : ExprEntry) (hsmall : a.expressions.size < UInt32.size) :
    a.Pushes (a.pushExpression entry) (.expression (.ofNat a.expressions.size))
      entry.node.children := by
  refine ⟨?_, rfl, ?_, ?_⟩
  · rw [children?, toNat_ofNat hsmall, Array.getElem?_size, Option.map_none]
  · rw [children?, toNat_ofNat hsmall, pushExpression, Array.getElem?_push_size, Option.map_some]
  · rintro (i | i | i) hne
    · have hne' : i ≠ .ofNat a.expressions.size := fun heq => hne (congrArg _ heq)
      rw [children?, pushExpression, getElem?_push_of_ne _ _ hne', children?]
    · rfl
    · rfl

theorem pushes_statement (a : Arena) (node : StmtNode) (hsmall : a.statements.size < UInt32.size) :
    a.Pushes (a.pushStatement node) (.statement (.ofNat a.statements.size)) node.children := by
  refine ⟨?_, rfl, ?_, ?_⟩
  · rw [children?, toNat_ofNat hsmall, Array.getElem?_size, Option.map_none]
  · rw [children?, toNat_ofNat hsmall, pushStatement, Array.getElem?_push_size, Option.map_some]
  · rintro (i | i | i) hne
    · rfl
    · have hne' : i ≠ .ofNat a.statements.size := fun heq => hne (congrArg _ heq)
      rw [children?, pushStatement, getElem?_push_of_ne _ _ hne', children?]
    · rfl

theorem pushes_function (a : Arena) (routine : Routine Index)
    (hsmall : a.functions.size < UInt32.size) :
    a.Pushes (a.pushFunction routine) (.function (.ofNat a.functions.size))
      (routine.body.map .statement) := by
  refine ⟨?_, rfl, ?_, ?_⟩
  · rw [children?, toNat_ofNat hsmall, Array.getElem?_size, Option.map_none]
  · rw [children?, toNat_ofNat hsmall, pushFunction, Array.getElem?_push_size, Option.map_some]
  · rintro (i | i | i) hne
    · rfl
    · rfl
    · have hne' : i ≠ .ofNat a.functions.size := fun heq => hne (congrArg _ heq)
      rw [children?, pushFunction, getElem?_push_of_ne _ _ hne', children?]

end Arena

end Lox
