import Lox.Proofs.Grammar.Descent
import Lox.Proofs.Grammar.Powers

/-!
# Powers and layers agree

Reading by the powers of operators gives what reading layer by layer gives, on every sequence of
tokens: the same tree, the same place to go on, the same mistakes, or the same stop.

The induction is on the tokens that are left. At one state the layers are compared from the tightest
to the loosest: what a layer adds is what lies between its power and the next one, and behind an
operand the token at hand binds with at most the power of the layer (`Parse.loose_pratt`).

Main statement: `Parse.expression_eq_layered`.
-/

namespace Lox

namespace Layer

/-- The power with which the operators of a layer bind. -/
def power : Layer → Nat
  | .assignment => 1
  | .disjunction => 3
  | .conjunction => 5
  | .equality => 7
  | .comparison => 9
  | .term => 11
  | .factor => 13
  | .unary => 15
  | .call => 17
  | .primary => 19

/-- The layers whose operators stand between two operands and associate to the left. -/
def joins : Layer → Bool
  | .assignment | .unary | .call | .primary => false
  | _ => true

/-- How many steps lead from a layer down to an atom. -/
def depth : Layer → Nat
  | .assignment => 10
  | .disjunction => 9
  | .conjunction => 8
  | .equality => 7
  | .comparison => 6
  | .term => 5
  | .factor => 4
  | .unary => 3
  | .call => 2
  | .primary => 1

variable {layer : Layer}

/-- No operator binds with a power between those of two layers. -/
theorem power_succ_le (h : layer.joins = true) (follow : Follow) :
    layer.power + 1 ≤ follow.leftPower ↔ layer.tighter.power ≤ follow.leftPower := by
  cases layer <;> cases h <;> rcases follow with _ | _ | op | op | _ <;>
    first | decide | cases op <;> decide

theorem depth_tighter (h : layer.joins = true) : layer.depth = layer.tighter.depth + 1 := by
  cases layer <;> first | rfl | cases h

theorem joins_or_unary (h : layer.joins = true) :
    layer.tighter.joins = true ∨ layer.tighter = .unary := by
  cases layer <;> first | exact .inl rfl | exact .inr rfl | cases h

/-- Every operator binds more tightly than an assignment asks for. -/
theorem one_lt_leftPower (follow : Follow) : 1 < follow.leftPower := by
  rcases follow with _ | _ | op | op | _ <;> first | decide | cases op <;> decide

/-- Only calls and accesses bind more tightly than operators in front of their operand. -/
theorem leftPower_lt_unary {kind : Kind} {follow : Follow}
    (hfollow : Follow.ofKind? kind = some follow) (hcall : kind ≠ .leftParen)
    (haccess : kind ≠ .dot) : follow.leftPower < Layer.unary.power := by
  cases follow with
  | call =>
      unfold Follow.ofKind? at hfollow
      split at hfollow <;> simp_all
  | access =>
      unfold Follow.ofKind? at hfollow
      split at hfollow <;> simp_all
  | binary op =>
      cases op <;> decide
  | logical op =>
      cases op <;> decide
  | assign =>
      decide

/-- Only an equals sign binds more weakly than every layer. -/
theorem equal_of_leftPower_lt {kind : Kind} {follow : Follow}
    (hfollow : Follow.ofKind? kind = some follow)
    (hlt : follow.leftPower < Layer.disjunction.power) : kind = .equal := by
  rcases follow with _ | _ | op | op | _
  · exact absurd hlt (by decide)
  · exact absurd hlt (by decide)
  · exact absurd hlt (by cases op <;> decide)
  · exact absurd hlt (by cases op <;> decide)
  · unfold Follow.ofKind? at hfollow
    split at hfollow <;> simp_all

/-- The operators of a layer bind with its power. -/
theorem follow_of_binary? {kind : Kind} {op : BinaryOp} (h : layer.binary? kind = some op) :
    Follow.ofKind? kind = some (.binary op) ∧ op.power = layer.power := by
  cases layer <;> cases kind <;> cases h <;> exact ⟨rfl, rfl⟩

theorem follow_of_logical? {kind : Kind} {op : LogicalOp} (h : layer.logical? kind = some op) :
    Follow.ofKind? kind = some (.logical op) ∧ op.power = layer.power := by
  unfold logical? at h
  split at h <;> cases h <;> exact ⟨rfl, rfl⟩

/-- Every operator between two operands that binds with the power of a layer is one of the layer. -/
theorem binary?_of_power {kind : Kind} {op : BinaryOp}
    (h : Follow.ofKind? kind = some (.binary op)) (hpower : op.power = layer.power) :
    layer.binary? kind = some op := by
  have hkind : BinaryOp.ofKind? kind = some op := by
    unfold Follow.ofKind? at h
    split at h <;> simp_all
  cases layer <;> cases kind <;> cases hkind <;> first | rfl | cases hpower

theorem logical?_of_power {kind : Kind} {op : LogicalOp}
    (h : Follow.ofKind? kind = some (.logical op)) (hpower : op.power = layer.power) :
    layer.logical? kind = some op := by
  have hkind : kind = .keyword .and ∧ op = .and ∨ kind = .keyword .or ∧ op = .or := by
    unfold Follow.ofKind? at h
    split at h <;> simp_all
  rcases hkind with ⟨rfl, rfl⟩ | ⟨rfl, rfl⟩ <;> cases layer <;> first | rfl | cases hpower

/-- A token that joins no operands of a layer does not bind with its power. -/
theorem leftPower_ne (hjoins : layer.joins = true) {kind : Kind} (h : layer.join? kind = none)
    {follow : Follow} (hfollow : Follow.ofKind? kind = some follow) :
    follow.leftPower ≠ layer.power := by
  intro hpower
  cases follow with
  | binary op =>
      rw [join?, binary?_of_power hfollow hpower] at h
      cases h
  | logical op =>
      rw [join?, logical?_of_power hfollow hpower] at h
      cases hbinary : layer.binary? kind with
      | none =>
          rw [hbinary] at h
          cases h
      | some op' =>
          rw [hbinary] at h
          cases h
  | _ =>
      -- No other way to go on an expression binds with the power of such a layer.
      exact absurd hpower (by revert hjoins; cases layer <;> decide)

end Layer

namespace Descent

open Parse

/-- The first clause of `read`. -/
theorem read_assigns (fuel : Nat) : read (fuel + 1) .assignment = (do
    let left ← read fuel .disjunction
    let token ← peek
    if token.kind = .equal then
      let _ ← advance
      let value ← read fuel .assignment
      assignTo left token.span value
    else return left) := by
  rw [read]
  rfl

/-- The last clause of `read`, for the layers whose operators stand between two operands. -/
theorem read_joins {layer : Layer} (h : layer.joins = true) (fuel : Nat) :
    read (fuel + 1) layer =
      (read fuel layer.tighter >>= chain layer (read fuel layer.tighter) fuel) := by
  cases layer <;> first | rfl | cases h

/-- An operator of a layer is followed by an operand of the next tighter layer. -/
theorem followed_join {layer : Layer} {kind : Kind} {join : Node → Expr → Expr → Expr}
    (h : layer.join? kind = some join) :
    ∃ follow, Follow.ofKind? kind = some follow ∧ follow.leftPower = layer.power ∧
      ∀ left place s, followed left place follow s = (do
        let right ← pratt (layer.power + 1)
        return join (← node place) left right : Parse Expr) s := by
  unfold Layer.join? at h
  split at h
  · rename_i op hop
    rcases Layer.follow_of_binary? hop with ⟨hfollow, hpower⟩
    cases h
    refine ⟨.binary op, hfollow, hpower, ?_⟩
    intro left place s
    rw [followed_binary, hpower]
  · rename_i op _ hop
    rcases Layer.follow_of_logical? hop with ⟨hfollow, hpower⟩
    cases h
    refine ⟨.logical op, hfollow, hpower, ?_⟩
    intro left place s
    rw [followed_logical, hpower]
  · cases h

/-- Behind an operand of a layer, going on with the operators of the layer is going on with all
operators that bind with at least its power: the token at hand binds with no more. -/
theorem chain_eq_continued {layer : Layer} (hjoins : layer.joins = true) {operand : Parse Expr}
    {n : Nat} (hoperand : ∀ t, t.rest.length < n → operand t = pratt (layer.power + 1) t)
    (fuel : Nat) : ∀ (left : Expr) (s : ParseState), s.rest.length ≤ n → s.rest.length < fuel →
      Loose (layer.power + 1) s →
        chain layer operand fuel left s = continued layer.power left s := by
  induction fuel with
  | zero =>
      intro left s _ hfuel
      omega
  | succ fuel ih =>
      intro left s hn hfuel hloose
      rw [chain, peek_bind]
      cases hjoin : layer.join? s.current.kind with
      | none =>
          -- No operator of the layer, and by `hloose` none of a tighter one either.
          have hstop : Loose layer.power s := by
            intro follow hfollow
            have hle := hloose follow hfollow
            have hne := Layer.leftPower_ne hjoins hjoin hfollow
            omega
          rw [continued_stop left hstop]
          rfl
      | some join =>
          rcases followed_join hjoin with ⟨follow, hfollow, hpower, hfollowed⟩
          have hnext : s.next.rest.length + 1 ≤ s.rest.length := length_next_of_follow hfollow
          have hright : operand s.next = pratt (layer.power + 1) s.next := hoperand s.next (by omega)
          rw [continued_step left hfollow (Nat.le_of_eq hpower.symm), bind_apply, hfollowed, ← bind_apply]
          simp only [bind_assoc, pure_bind]
          rw [advance_bind]
          refine bind_congr hright ?_
          intro right t hrun
          rw [hright] at hrun
          have hlength := ((steady_expressionAt _).passes hrun).length
          have ht : Loose (layer.power + 1) t := loose_pratt hrun
          refine bind_congr rfl ?_
          intro number w hnode
          cases hnode
          exact ih _ _ (show t.rest.length ≤ n by omega) (show t.rest.length < fuel by omega) ht

/-- Behind an equals sign there is a value, and nothing goes on behind that. -/
theorem continued_equal {s : ParseState} (left : Expr) (hequal : s.current.kind = .equal) :
    continued 0 left s = (pratt 0 >>= assignTo left s.current.span) s.next := by
  have hfollow : Follow.ofKind? s.current.kind = some .assign := by rw [hequal]; rfl
  have hpower : pratt 0 s.next = pratt 1 s.next := by
    refine pratt_congr ?_
    intro follow
    have hpos := Layer.one_lt_leftPower follow
    omega
  rw [continued_step left hfollow (Nat.zero_le _), bind_apply (followed _ _ _), followed_assign,
    ← bind_apply, bind_assoc]
  refine bind_congr hpower.symm ?_
  intro value t hvalue
  rw [bind_apply]
  cases hassigned : assignTo left s.current.span value t with
  | error e w =>
      rfl
  | ok e w =>
      -- An assignment ends where its value does, and no operator is weak enough to stand there.
      have hnone : Loose 0 w := by
        intro follow hfollow
        rw [current_of_assignTo hassigned] at hfollow
        have hlt := loose_pratt hvalue follow hfollow
        have hpos := Layer.one_lt_leftPower follow
        omega
      exact continued_stop e hnone

/-- At a state, reading layer by layer gives what reading by powers gives. -/
structure AgreesAt (s : ParseState) : Prop where
  assignment : ∀ fuel, 16 * s.rest.length + Layer.assignment.depth ≤ fuel →
    read fuel .assignment s = pratt 0 s
  layer : ∀ fuel layer, layer.joins = true ∨ layer = .unary →
    16 * s.rest.length + layer.depth ≤ fuel → read fuel layer s = pratt layer.power s
  suffixes : ∀ fuel left, 16 * s.rest.length + 1 ≤ fuel →
    suffixes fuel left s = continued Layer.unary.power left s
  arguments : ∀ fuel, 16 * s.rest.length + 12 ≤ fuel →
    arguments fuel s = fuelled Parse.arguments s
  moreArguments : ∀ fuel count, 16 * s.rest.length + 11 ≤ fuel →
    moreArguments fuel count s = argumentsFrom count s

theorem length_next_lt {s : ParseState} {kind : Kind} (h : s.current.kind = kind)
    (hkind : kind ≠ .eof) : s.next.rest.length < s.rest.length :=
  (ParseState.Passes.next (ne_nil_of_kind hkind h)).length

section Step

variable {s : ParseState} (ih : ∀ t : ParseState, t.rest.length < s.rest.length → AgreesAt t)

include ih

theorem read_primary (fuel : Nat) (hfuel : 16 * s.rest.length + Layer.primary.depth ≤ fuel)
    (hop : UnaryOp.ofKind? s.current.kind = none) :
    read fuel .primary s = fuelled operand s := by
  simp only [Layer.depth] at hfuel
  rcases fuel with _ | fuel
  · omega
  · rw [read, peek_bind]
    by_cases hparen : s.current.kind = .leftParen
    · have hnext := length_next_lt hparen (by decide)
      have hinner := (ih s.next hnext).assignment fuel (by simp only [Layer.depth]; omega)
      rw [operand_group hparen, if_pos hparen, advance_bind]
      exact bind_congr hinner fun _ _ _ => rfl
    · rw [operand_atom hop hparen, if_neg hparen]

/-- Behind a primary expression there are calls and accesses, and all other operators bind with less
than the power that is asked for. -/
theorem suffixes_eq_continued (fuel : Nat) (hfuel : 16 * s.rest.length + 1 ≤ fuel) (left : Expr) :
    suffixes fuel left s = continued Layer.unary.power left s := by
  rcases fuel with _ | fuel
  · omega
  · rw [suffixes, peek_bind]
    by_cases hparen : s.current.kind = .leftParen
    · have hfollow : Follow.ofKind? s.current.kind = some .call := by rw [hparen]; rfl
      have hnext := length_next_lt hparen (by decide)
      have hvalues := (ih s.next hnext).arguments fuel (by omega)
      rw [continued_step left hfollow (by decide), bind_apply, followed_call, ← bind_apply]
      simp only [hparen, bind_assoc, pure_bind]
      rw [advance_bind]
      refine bind_congr hvalues ?_
      intro values t hrun
      rw [hvalues] at hrun
      have ht := (steady_arguments.passes hrun).length
      refine bind_congr rfl ?_
      intro close w hclose
      rcases eq_of_expect hclose with ⟨-, -, rfl⟩
      refine bind_congr rfl ?_
      intro number v hnode
      have hv : v.rest = t.next.rest := rest_of_node hnode
      have hlength : v.rest.length ≤ t.rest.length := hv ▸ length_next t
      exact (ih v (by omega)).suffixes fuel _ (by omega)
    · by_cases hdot : s.current.kind = .dot
      · have hfollow : Follow.ofKind? s.current.kind = some .access := by rw [hdot]; rfl
        have hnext := length_next_lt hdot (by decide)
        rw [continued_step left hfollow (by decide), bind_apply, followed_access, ← bind_apply]
        simp only [hdot, bind_assoc, pure_bind]
        rw [advance_bind]
        refine bind_congr rfl ?_
        intro name t hname
        rcases eq_of_ident hname with ⟨-, -, rfl⟩
        refine bind_congr rfl ?_
        intro number v hnode
        have hv : v.rest = s.next.next.rest := rest_of_node hnode
        have hlength : v.rest.length ≤ s.next.rest.length := hv ▸ length_next s.next
        exact (ih v (by omega)).suffixes fuel _ (by omega)
      · have hloose : Loose Layer.unary.power s :=
          fun follow hfollow => Layer.leftPower_lt_unary hfollow hparen hdot
        rw [continued_stop left hloose]
        refine congrFun (g := (pure left : Parse Expr)) ?_ s
        split
        · rename_i hkind
          exact absurd hkind hparen
        · rename_i hkind
          exact absurd hkind hdot
        · rfl

theorem read_unary (fuel : Nat) (hfuel : 16 * s.rest.length + Layer.unary.depth ≤ fuel) :
    read fuel .unary s = pratt Layer.unary.power s := by
  simp only [Layer.depth] at hfuel
  rcases fuel with _ | fuel
  · omega
  · rw [read, peek_bind, pratt_eq]
    cases hop : UnaryOp.ofKind? s.current.kind with
    | some op =>
        have hkind : s.current.kind ≠ .eof := by
          intro hkind
          rw [hkind] at hop
          cases hop
        have hnext := length_next_lt rfl hkind
        have hinner := (ih s.next hnext).layer fuel .unary (.inr rfl)
          (by simp only [Layer.depth]; omega)
        -- What an operator stands before ends where its own operand does, so nothing follows.
        rw [bind_apply, operand_unary hop, ← bind_apply]
        simp only [bind_assoc, pure_bind]
        rw [advance_bind]
        refine bind_congr hinner ?_
        intro inner t hrun
        rw [hinner] at hrun
        have hloose : Loose Layer.unary.power t := loose_pratt hrun
        refine bind_congr rfl ?_
        intro number w hnode
        cases hnode
        exact (continued_stop (s := { t with nextId := t.nextId + 1 }) _ hloose).symm
    | none =>
        -- Two steps down to a primary expression, and then the calls and accesses behind it.
        rcases fuel with _ | fuel
        · omega
        · have hprimary := read_primary ih fuel (by simp only [Layer.depth]; omega) hop
          dsimp only
          rw [read]
          refine bind_congr hprimary ?_
          intro callee t hrun
          rw [hprimary] at hrun
          have hlength := (steady_operand.passes hrun).length
          exact (ih t (by omega)).suffixes fuel callee (by omega)

/-- Reading the next tighter layer stops at operators of this layer, which are then read in a row. -/
theorem read_of_tighter {layer : Layer} (hjoins : layer.joins = true) (fuel : Nat)
    (hfuel : 16 * s.rest.length + layer.depth ≤ fuel + 1)
    (htighter : read fuel layer.tighter s = pratt layer.tighter.power s) :
    read (fuel + 1) layer s = pratt layer.power s := by
  have hdepth := Layer.depth_tighter hjoins
  have htight : ∀ t, pratt layer.tighter.power t = pratt (layer.power + 1) t :=
    fun t => (pratt_congr (Layer.power_succ_le hjoins)).symm
  -- The further operands stand behind an operator, so fewer tokens are left there.
  have hoperand : ∀ t : ParseState, t.rest.length < s.rest.length →
      read fuel layer.tighter t = pratt (layer.power + 1) t := by
    intro t ht
    rw [(ih t ht).layer fuel layer.tighter (Layer.joins_or_unary hjoins) (by omega), htight]
  rw [read_joins hjoins, pratt_split (Nat.le_succ layer.power)]
  refine bind_congr (htighter.trans (htight s)) ?_
  intro left t hrun
  rw [htighter, htight] at hrun
  have hlength := ((steady_expressionAt _).passes hrun).length
  exact chain_eq_continued hjoins hoperand fuel left t (by omega) (by omega) (loose_pratt hrun)

theorem read_layer (layer : Layer) (hlayer : layer.joins = true ∨ layer = .unary) (fuel : Nat)
    (hfuel : 16 * s.rest.length + layer.depth ≤ fuel) :
    read fuel layer s = pratt layer.power s := by
  -- The induction is on the steps that lead down to operators in front of their operand.
  induction hdepth : layer.depth generalizing layer fuel with
  | zero =>
      cases layer <;> cases hdepth
  | succ depth ihdepth =>
      rcases hlayer with hjoins | rfl
      · have hsucc := Layer.depth_tighter hjoins
        rcases fuel with _ | fuel
        · omega
        · -- The tighter layer is read at the same state, where the other hypothesis says nothing.
          have htighter := ihdepth layer.tighter (Layer.joins_or_unary hjoins) fuel (by omega)
            (by omega)
          exact read_of_tighter ih hjoins fuel hfuel htighter
      · exact read_unary ih fuel hfuel

/-- Behind a disjunction only an equals sign goes on, and behind its value nothing does. -/
theorem read_assignment (fuel : Nat)
    (hfuel : 16 * s.rest.length + Layer.assignment.depth ≤ fuel) :
    read fuel .assignment s = pratt 0 s := by
  simp only [Layer.depth] at hfuel
  rcases fuel with _ | fuel
  · omega
  · have hdisjunction := read_layer ih .disjunction (.inl rfl) fuel
      (by simp only [Layer.depth]; omega)
    rw [read_assigns, pratt_split (Nat.zero_le Layer.disjunction.power)]
    refine bind_congr hdisjunction ?_
    intro left t hrun
    rw [hdisjunction] at hrun
    have hlength := ((steady_expressionAt _).passes hrun).length
    have hloose : Loose Layer.disjunction.power t := loose_pratt hrun
    rw [peek_bind]
    by_cases hequal : t.current.kind = .equal
    · have hnext := length_next_lt hequal (by decide)
      have hvalue := (ih t.next (by omega)).assignment fuel (by simp only [Layer.depth]; omega)
      rw [if_pos hequal, advance_bind, continued_equal left hequal]
      exact bind_congr hvalue fun _ _ _ => rfl
    · have hnone : Loose 0 t := by
        intro follow hfollow
        exact absurd (Layer.equal_of_leftPower_lt hfollow (hloose follow hfollow)) hequal
      rw [if_neg hequal, continued_stop left hnone]
      rfl

theorem moreArguments_eq (fuel count : Nat) (hfuel : 16 * s.rest.length + 11 ≤ fuel) :
    moreArguments fuel count s = argumentsFrom count s := by
  rcases fuel with _ | fuel
  · omega
  · rw [moreArguments, argumentsFrom_eq]
    refine bind_congr rfl ?_
    intro _ t hlimit
    -- A mistake may have been recorded, but the tokens are the same.
    have ht : t.rest = s.rest := rest_of_limit hlimit
    have hfirst : read fuel .assignment t = pratt 0 t := by
      refine read_assignment ?_ fuel ?_
      · intro w hw
        exact ih w (ht ▸ hw)
      · rw [ht]
        simp only [Layer.depth]
        omega
    refine bind_congr hfirst ?_
    intro first w hrun
    rw [hfirst] at hrun
    have hw := ((steady_expressionAt _).passes hrun).length
    rw [ht] at hw
    refine bind_congr rfl ?_
    intro b v haccept
    have hv := length_of_accept haccept
    refine ite_apply_congr ?_ fun _ => rfl
    intro _
    have hothers := (ih v (by omega)).moreArguments fuel (count + 1) (by omega)
    exact bind_congr hothers fun _ _ _ => rfl

theorem arguments_eq_fuelled (fuel : Nat) (hfuel : 16 * s.rest.length + 12 ≤ fuel) :
    arguments fuel s = fuelled Parse.arguments s := by
  rcases fuel with _ | fuel
  · omega
  · rw [arguments, Parse.arguments_eq]
    refine bind_congr rfl ?_
    intro closed t hcheck
    cases hcheck
    refine ite_apply_congr (fun _ => rfl) ?_
    intro _
    exact moreArguments_eq ih fuel 0 (by omega)

end Step

theorem agreesAt (s : ParseState) : AgreesAt s := by
  induction hn : s.rest.length using Nat.strongRecOn generalizing s with
  | ind n ih =>
      have hsmaller : ∀ t : ParseState, t.rest.length < s.rest.length → AgreesAt t := by
        intro t ht
        exact ih t.rest.length (by omega) t rfl
      exact ⟨fun fuel => read_assignment hsmaller fuel,
        fun fuel layer hlayer => read_layer hsmaller layer hlayer fuel,
        fun fuel left hfuel => suffixes_eq_continued hsmaller fuel hfuel left,
        fun fuel => arguments_eq_fuelled hsmaller fuel,
        fun fuel count => moreArguments_eq hsmaller fuel count⟩

/-- What is read layer by layer, with any amount of fuel that is enough for the tokens. -/
theorem read_eq_expression (fuel : Nat) (s : ParseState) (h : 16 * (s.rest.length + 1) ≤ fuel) :
    read fuel .assignment s = expression s := by
  rw [expression_eq_pratt]
  refine (agreesAt s).assignment fuel ?_
  simp only [Layer.depth]
  omega

end Descent

/-- Whatever tokens are left, an expression that is read by the powers of its operators is the one
that is read layer by layer: the same tree, the same tokens left, the same mistakes recorded, or the
same mistake to stop at. More fuel for the layers makes no difference. -/
theorem Parse.expression_eq_layered (s : ParseState) (extra : Nat) :
    Parse.expression s = Descent.read (16 * (s.rest.length + 1) + extra) .assignment s :=
  (Descent.read_eq_expression _ s (Nat.le_add_right _ _)).symm

end Lox
