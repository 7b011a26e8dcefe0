import Lox.Proofs.Progress.Text
import Lox.Proofs.Spelling.Statement

/-!
# What stands at the places of nodes

The nodes of an arena keep names and places of the texts that they were read from. At a name stands
the name, at the keyword of a `return` stands `return`, and at every place stands something.

* `Span.Covers` says that something stands at a place.
* `Arena.InStep` says this of all places in an arena; `Arena.InStep.read` keeps it while a text is read.
* `Reading.covers_error` says where the mistakes in a text are.
-/

namespace Lox

/-- The place begins and ends between two characters of the text, and there is one between them. -/
def Span.Covers (place : Span) (text : List Char) : Prop :=
  ∃ covered, slice? text place = some covered ∧ covered ≠ []

theorem Span.Covers.append {place : Span} {text : List Char} (h : place.Covers text)
    (more : List Char) : place.Covers (text ++ more) := by
  rcases h with ⟨covered, hslice, hsome⟩
  exact ⟨covered, slice?_append more hslice, hsome⟩

/-! ## Tokens -/

section Tokens

variable {before text : List Char}

theorem Token.Written.covers {t : Token} (h : t.Written text) : t.span.Covers text :=
  ⟨_, h.slice, h.nonempty⟩

theorem Ident.WrittenIn.slice {ts : List Token} {name : Ident} (h : name.WrittenIn ts)
    (hts : ∀ t ∈ ts, t.Written text) : slice? text name.span = some name.name.toList := by
  rcases h with ⟨t, ht, -, rfl⟩
  exact (hts t ht).slice

theorem Ident.WrittenIn.covers {ts : List Token} {name : Ident} (h : name.WrittenIn ts)
    (hts : ∀ t ∈ ts, t.Written text) : name.span.Covers text := by
  rcases h with ⟨t, ht, -, rfl⟩
  exact (hts t ht).covers

/-- The tokens of a text that begins behind other text. -/
theorem written_textTokens (before text : List Char) :
    ∀ t ∈ textTokens (byteLength before) text, t.Written (before ++ text) := by
  rcases exists_tokensOf_scan before text with ⟨front, hscan, hfront⟩
  rw [textTokens, hscan, ParseState.start_append_end]
  exact hfront

/-- Reading begins with the tokens of the text and the end of the input. -/
theorem tokens_start_scan (before text : List Char) (nextId : Nat) :
    (ParseState.start (scan (byteLength before) text) nextId).tokens =
      textTokens (byteLength before) text ++ [Token.endAt (byteLength (before ++ text))] := by
  rcases exists_tokensOf_scan before text with ⟨front, hscan, -⟩
  rw [textTokens, hscan, ParseState.start_append_end, ParseState.start_append_end]
  rfl

/-- A mistake in the characters has characters. -/
theorem covers_mistake {nextId : Nat} {e : SyntaxError}
    (he : e ∈ (ParseState.start (scan (byteLength before) text) nextId).errors) :
    e.span.Covers (before ++ text) := by
  rcases (tiles_scan (byteLength before) text).exists_front with ⟨front, hscan, hfront⟩
  rw [hscan, ParseState.start_append_end] at he
  rcases List.mem_filterMap.mp he with ⟨item, hitem, hmistake⟩
  rcases hfront item hitem with ⟨left, m, rfl, htakes, rfl⟩
  have hspan : e.span = ⟨byteLength (before ++ left), byteLength m.lexeme⟩ := by
    rw [byteLength_append, ← span_item m]
    revert hmistake
    cases m.item (byteLength before + byteLength left) with
    | ok t =>
        intro hmistake
        cases hmistake
    | error mistake =>
        intro hmistake
        cases hmistake
        rfl
  have htext : before ++ (left ++ (m.lexeme ++ m.rest)) = before ++ left ++ m.lexeme ++ m.rest := by
    simp only [List.append_assoc]
  rw [hspan, htext]
  exact ⟨m.lexeme, slice?_middle _ _ _, htakes.ne_nil⟩

/-- A mistake in a text is at some characters or at the end. -/
theorem Reading.covers_error {nextId : Nat} {errors : List SyntaxError} {e : SyntaxError}
    (herrors : (Reading.ofText (byteLength before) nextId text).outcome = .error errors)
    (he : e ∈ errors) :
    e.span.Covers (before ++ text) ∨ e.span = ⟨byteLength (before ++ text), 0⟩ := by
  by_cases hmistake : e ∈ (ParseState.start (scan (byteLength before) text) nextId).errors
  · exact .inl (covers_mistake hmistake)
  · have hspan := Reading.span_of_error herrors he hmistake
    rw [tokens_start_scan, List.map_append] at hspan
    rcases List.mem_append.mp hspan with hspan | hspan
    · rcases List.mem_map.mp hspan with ⟨t, ht, heq⟩
      rw [← heq]
      exact .inl (written_textTokens before text t ht).covers
    · exact .inr (List.mem_singleton.mp hspan)

end Tokens

/-! ## Arenas -/

namespace Arena

/-- All names that the nodes keep. -/
def idents (a : Arena) : List Ident :=
  a.expressions.toList.flatMap (fun entry => entry.node.idents) ++
    (a.statements.toList.flatMap StmtNode.idents ++ a.functions.toList.flatMap Routine.idents)

/-- The places of all `return` keywords that the nodes keep. -/
def keywords (a : Arena) : List Span :=
  a.statements.toList.filterMap StmtNode.keyword?

/-- All places that the nodes keep. -/
def places (a : Arena) : List Span :=
  a.expressions.toList.map ExprEntry.span ++ (a.idents.map Ident.span ++ a.keywords)

section Members

variable {a : Arena} {entry : ExprEntry} {node : StmtNode} {routine : Routine Index} {name : Ident}

theorem idents_of_entry (hentry : entry ∈ a.expressions.toList) (hname : name ∈ entry.node.idents) :
    name ∈ a.idents :=
  List.mem_append_left _ (List.mem_flatMap.mpr ⟨entry, hentry, hname⟩)

theorem idents_of_statement (hnode : node ∈ a.statements.toList) (hname : name ∈ node.idents) :
    name ∈ a.idents :=
  List.mem_append_right _ (List.mem_append_left _ (List.mem_flatMap.mpr ⟨node, hnode, hname⟩))

theorem idents_of_function (hroutine : routine ∈ a.functions.toList)
    (hname : name ∈ routine.idents) : name ∈ a.idents :=
  List.mem_append_right _
    (List.mem_append_right _ (List.mem_flatMap.mpr ⟨routine, hroutine, hname⟩))

theorem places_of_entry (hentry : entry ∈ a.expressions.toList) : entry.span ∈ a.places :=
  List.mem_append_left _ (List.mem_map_of_mem hentry)

theorem places_of_ident (hname : name ∈ a.idents) : name.span ∈ a.places :=
  List.mem_append_right _ (List.mem_append_left _ (List.mem_map_of_mem hname))

theorem places_of_keyword {place : Span} (hplace : place ∈ a.keywords) : place ∈ a.places :=
  List.mem_append_right _ (List.mem_append_right _ hplace)

end Members

/-- What the nodes keep of a text is what stands there. -/
structure InStep (a : Arena) (text : List Char) : Prop where
  names : ∀ name ∈ a.idents, slice? text name.span = some name.name.toList
  keywords : ∀ place ∈ a.keywords, slice? text place = some Keyword.return.text.toList
  places : ∀ place ∈ a.places, place.Covers text

variable {a b : Arena} {ts : List Token} {before text : List Char}

/-- What is in an array that has grown was in it before or is new. -/
theorem mem_or_added {α : Type} {xs ys : Array α} {y : α}
    (hgrows : ∀ (n : Nat) x, xs[n]? = some x → ys[n]? = some x) (hy : y ∈ ys.toList) :
    y ∈ xs.toList ∨ ∃ n, xs.size ≤ n ∧ ys[n]? = some y := by
  rcases Array.mem_iff_getElem?.mp (Array.mem_toList_iff.mp hy) with ⟨n, hn⟩
  rcases Nat.lt_or_ge n xs.size with hold | hnew
  · have hx := hgrows n _ (Array.getElem?_eq_getElem hold)
    rw [hn] at hx
    cases hx
    exact .inl (Array.mem_toList_iff.mpr (Array.getElem_mem hold))
  · exact .inr ⟨n, hnew, hn⟩

namespace AddsFrom

variable (h : AddsFrom ts a b) (hg : a.Grows b)

include h hg

theorem entry (hsmall : b.expressions.size ≤ UInt32.size) {entry : ExprEntry}
    (hentry : entry ∈ b.expressions.toList) : entry ∈ a.expressions.toList ∨
      entry.span ∈ ts.map Token.span ∧ ∀ name ∈ entry.node.idents, name.WrittenIn ts := by
  refine (mem_or_added hg.expressions hentry).imp_right ?_
  rintro ⟨n, hnew, hn⟩
  have hlt := (Array.getElem?_eq_some_iff.mp hn).1
  have hindex : (UInt32.ofNat n).toNat = n := toNat_ofNat (Nat.lt_of_lt_of_le hlt hsmall)
  -- Indices do not run out, so every number of an expression is one.
  have hwritten := h.expressions (.ofNat n) (by omega) (by omega)
  rcases hwritten.placed with ⟨entry', hentry', hplaced⟩
  rw [hindex, hn] at hentry'
  cases hentry'
  exact hplaced

theorem statement {node : StmtNode} (hnode : node ∈ b.statements.toList) :
    node ∈ a.statements.toList ∨ node.WrittenIn ts := by
  refine (mem_or_added hg.statements hnode).imp_right ?_
  rintro ⟨n, hnew, hn⟩
  exact h.statements n node hnew hn

theorem function {routine : Routine Index} (hroutine : routine ∈ b.functions.toList) :
    routine ∈ a.functions.toList ∨ routine.WrittenIn ts := by
  refine (mem_or_added hg.functions hroutine).imp_right ?_
  rintro ⟨n, hnew, hn⟩
  exact h.functions n routine hnew hn

/-- A name was there before, or it is written in the text. -/
theorem ident (hsmall : b.expressions.size ≤ UInt32.size) {name : Ident} (hname : name ∈ b.idents) :
    name ∈ a.idents ∨ name.WrittenIn ts := by
  rcases List.mem_append.mp hname with hname | hname
  · rcases List.mem_flatMap.mp hname with ⟨entry, hentry, hname⟩
    rcases h.entry hg hsmall hentry with hold | ⟨-, hnames⟩
    · exact .inl (idents_of_entry hold hname)
    · exact .inr (hnames name hname)
  · rcases List.mem_append.mp hname with hname | hname
    · rcases List.mem_flatMap.mp hname with ⟨node, hnode, hname⟩
      rcases h.statement hg hnode with hold | hwritten
      · exact .inl (idents_of_statement hold hname)
      · exact .inr (hwritten.names name hname)
    · rcases List.mem_flatMap.mp hname with ⟨routine, hroutine, hname⟩
      rcases h.function hg hroutine with hold | hwritten
      · exact .inl (idents_of_function hold hname)
      · exact .inr (hwritten name hname)

/-- A keyword was there before, or it is written in the text. -/
theorem keyword {place : Span} (hplace : place ∈ b.keywords) : place ∈ a.keywords ∨
    ∃ t ∈ ts, t.kind = .keyword .return ∧ t.span = place := by
  rcases List.mem_filterMap.mp hplace with ⟨node, hnode, hkeyword⟩
  rcases h.statement hg hnode with hold | hwritten
  · exact .inl (List.mem_filterMap.mpr ⟨node, hold, hkeyword⟩)
  · exact .inr (hwritten.keyword place hkeyword)

end AddsFrom

namespace InStep

theorem empty (text : List Char) : InStep .empty text :=
  ⟨nofun, nofun, nofun⟩

theorem append (h : a.InStep text) (more : List Char) : a.InStep (text ++ more) :=
  ⟨fun name hname => slice?_append more (h.names name hname),
    fun place hplace => slice?_append more (h.keywords place hplace),
    fun place hplace => (h.places place hplace).append more⟩

/-- What an arena keeps stays in step while it takes up the nodes of one more text. -/
theorem read (h : a.InStep before) (hg : a.Grows b)
    (hadds : AddsFrom (textTokens (byteLength before) text) a b)
    (hsmall : b.expressions.size ≤ UInt32.size) : b.InStep (before ++ text) := by
  have hold := h.append text
  have hwritten := written_textTokens before text
  refine ⟨?_, ?_, ?_⟩
  · intro name hname
    rcases hadds.ident hg hsmall hname with hname | hname
    · exact hold.names name hname
    · exact hname.slice hwritten
  · intro place hplace
    rcases hadds.keyword hg hplace with hplace | ⟨t, ht, hkind, rfl⟩
    · exact hold.keywords place hplace
    · rw [(hwritten t ht).slice, (hwritten t ht).keyword _ hkind]
  · intro place hplace
    -- A place is that of an expression, of a name or of a keyword.
    rcases List.mem_append.mp hplace with hplace | hplace
    · rcases List.mem_map.mp hplace with ⟨entry, hentry, rfl⟩
      rcases hadds.entry hg hsmall hentry with hentry | ⟨hspan, -⟩
      · exact hold.places _ (places_of_entry hentry)
      · rcases List.mem_map.mp hspan with ⟨t, ht, hspan⟩
        rw [← hspan]
        exact (hwritten t ht).covers
    · rcases List.mem_append.mp hplace with hplace | hplace
      · rcases List.mem_map.mp hplace with ⟨name, hname, rfl⟩
        rcases hadds.ident hg hsmall hname with hname | hname
        · exact hold.places _ (places_of_ident hname)
        · exact hname.covers hwritten
      · rcases hadds.keyword hg hplace with hplace | ⟨t, ht, -, rfl⟩
        · exact hold.places _ (places_of_keyword hplace)
        · exact (hwritten t ht).covers

end InStep

end Arena

end Lox
