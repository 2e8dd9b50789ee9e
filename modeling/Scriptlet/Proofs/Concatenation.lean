import Scriptlet.Proofs.AlikeSessions
import Scriptlet.Proofs.Completeness
import Scriptlet.Proofs.Soundness

namespace Scriptlet

/-!
# Sources one after the other

Two sources are put together with a line end between them.

* `Segment.first_append_newline`, `segments_append_newline` — a line end ends each segment but a
  string that is left open, so the segments are those of the two sources.
* `Token.exists_ofSource_joinLines` — so are the tokens; those of the second source stand further
  down (`Token.down`), and the token that ends the first is left out.
* `Node.Like.shaped`, `Stmt.like_of_shapeAll` — whether trees agree in their tokens does not depend
  on the numbers of their nodes.
* `Program.parse_append` — so from the tokens of both sources the statements of both are read.
-/

/-! ### Segments -/

section Lists

variable {α : Type} {p : α → Bool} {a : α}

/-- `takeWhile` stops at a member that fails, whatever is behind it. -/
theorem takeWhile_append_cons (ha : p a = false) (l rest : List α) :
    (l ++ a :: rest).takeWhile p = l.takeWhile p := by
  induction l with
  | nil => exact List.takeWhile_cons_of_neg (by simp [ha])
  | cons b l ih =>
    rw [List.cons_append, List.takeWhile_cons, List.takeWhile_cons, ih]

/-- `dropWhile` stops there, too, and keeps what is behind. -/
theorem dropWhile_append_cons (ha : p a = false) (l rest : List α) :
    (l ++ a :: rest).dropWhile p = l.dropWhile p ++ a :: rest := by
  induction l with
  | nil => exact List.dropWhile_cons_of_neg (by simp [ha])
  | cons b l ih =>
    rw [List.cons_append, List.dropWhile_cons, List.dropWhile_cons, ih]
    split <;> rfl

end Lists

namespace Segment

variable (c : Char) (cs rest : List Char)

/-- A line end makes no operator longer. -/
theorem comparison_append_newline (short long : Symbol) :
    comparison c short long (cs ++ '\n' :: rest) = comparison c short long cs := by
  cases cs with
  | nil => rfl
  | cons d cs =>
    unfold comparison
    rw [List.cons_append]
    split <;> simp_all

/-- A line end ends a comment. -/
theorem slash_append_newline : slash (cs ++ '\n' :: rest) = slash cs := by
  cases cs with
  | nil => rfl
  | cons d cs =>
    have htake := takeWhile_append_cons (p := (· ≠ '\n')) (a := '\n') (by decide) (d :: cs) rest
    unfold slash
    rw [htake, List.cons_append]
    split <;> simp_all

/-- A line end ends no string, so the string must have ended before. -/
theorem string_append_newline (h : (string cs).meaning ≠ .fault .unterminatedString) :
    string (cs ++ '\n' :: rest) = string cs := by
  unfold string at h ⊢
  simp only at h ⊢
  have hlt : (cs.takeWhile (· ≠ '"')).length < cs.length := by
    by_contra hle
    rw [if_neg hle] at h
    exact h rfl
  have htake : (cs ++ '\n' :: rest).takeWhile (· ≠ '"') = cs.takeWhile (· ≠ '"') := by
    rw [List.takeWhile_append, if_neg (Nat.ne_of_lt hlt)]
  rw [htake, if_pos hlt, if_pos]
  rw [List.length_append]
  omega

/-- A line end is no digit. -/
theorem number_append_newline : number c (cs ++ '\n' :: rest) = number c cs := by
  unfold number
  simp only
  rw [takeWhile_append_cons (by decide), dropWhile_append_cons (by decide)]
  cases hdrop : cs.dropWhile Char.isDigit with
  | nil => rfl
  | cons d ds =>
    cases ds with
    | nil =>
      -- a point at the end of the source: a line end is no digit either
      by_cases hd : d = '.'
      · subst hd
        rfl
      · simp [hd]
    | cons e ds =>
      by_cases hd : d = '.'
      · subst hd
        simp only [List.cons_append]
        rw [takeWhile_append_cons (by decide)]
      · simp [hd]

/-- A line end is no part of a word. -/
theorem word_append_newline : word c (cs ++ '\n' :: rest) = word c cs := by
  unfold word
  rw [takeWhile_append_cons (by decide)]

/-- Whatever stands behind a line end, the first segment before it is the same. -/
theorem first_append_newline (h : (first c cs).meaning ≠ .fault .unterminatedString) :
    first c (cs ++ '\n' :: rest) = first c cs := by
  unfold first at h ⊢
  rw [slash_append_newline, number_append_newline, word_append_newline]
  split
  · rfl
  · split
    · exact comparison_append_newline c cs rest _ _
    · next hmark _ hcomparison =>
      simp only [hmark, hcomparison] at h
      by_cases hslash : c = '/'
      · rw [if_pos hslash, if_pos hslash]
      · rw [if_neg hslash] at h ⊢
        rw [if_neg hslash]
        split
        · rfl
        · next hblank =>
          rw [if_neg hblank] at h
          split
          · next hquote =>
            rw [if_pos hquote] at h
            exact string_append_newline cs rest h
          · rfl

end Segment

/-- Sources with a line end between them fall into their own segments, unless a string is left
    open in the first. -/
theorem segments_append_newline (cs rest : List Char)
    (h : ∀ s ∈ segments cs, s.meaning ≠ .fault .unterminatedString) :
    segments (cs ++ '\n' :: rest) = segments cs ++ ⟨['\n'], .nothing⟩ :: segments rest := by
  induction hn : cs.length using Nat.strongRecOn generalizing cs with
  | ind n ih =>
    cases cs with
    | nil =>
      rw [List.nil_append, segments_cons, Segment.first_of_blank (by decide)]
      rfl
    | cons c cs =>
      rw [segments_cons] at h
      obtain ⟨hfirst, htail⟩ := List.forall_mem_cons.1 h
      have hlength := (Segment.first_text_isPrefix c cs).length_le
      have hpos := List.length_pos_iff.2 (Segment.first_text_ne_nil c cs)
      have hlt : ((c :: cs).drop (Segment.first c cs).text.length).length < n := by
        rw [List.length_drop]
        omega
      -- What stands behind the first segment is shorter, and no string is left open in it.
      rw [List.cons_append, segments_cons, segments_cons,
        Segment.first_append_newline c cs rest hfirst, ← List.cons_append,
        List.drop_append_of_le_length hlength, ih _ hlt _ htail rfl]
      rfl

/-! ### Tokens -/

/-- The token, some lines further down. -/
def Token.down (lines : Nat) (t : Token) : Token := { t with line := t.line + lines }

/-- The tokens of segments that start further down. -/
theorem tokens_itemsFrom_add (segs : List Segment) (line lines : Nat) :
    (itemsFrom (line + lines) segs).filterMap Item.token? =
      ((itemsFrom line segs).filterMap Item.token?).map (Token.down lines) := by
  induction segs generalizing line with
  | nil => rfl
  | cons s segs ih =>
    have hline : line + lines + s.newlines = line + s.newlines + lines := by omega
    unfold itemsFrom
    simp only [hline]
    cases s.meaning with
    | nothing | fault => exact ih _
    | token kind => exact congrArg (_ :: ·) (ih _)

/-- What follows on some segments is read from the line on which their end would stand. -/
theorem exists_itemsFrom_append (segs : List Segment) (line : Nat) :
    ∃ items last, last = line + (segs.flatMap Segment.text).count '\n' ∧
      itemsFrom line segs = items ++ [.token ⟨.eof, "", last⟩] ∧
      ∀ more, itemsFrom line (segs ++ more) = items ++ itemsFrom last more := by
  induction segs generalizing line with
  | nil => exact ⟨[], line, rfl, rfl, fun _ => rfl⟩
  | cons s segs ih =>
    obtain ⟨items, last, hlast, hitems, hmore⟩ := ih (line + s.newlines)
    have hlines : last = line + ((s :: segs).flatMap Segment.text).count '\n' := by
      rw [hlast, List.flatMap_cons, List.count_append]
      exact Nat.add_assoc ..
    obtain ⟨text, meaning⟩ := s
    cases meaning with
    | nothing => exact ⟨items, last, hlines, hitems, hmore⟩
    | token | fault =>
      exact ⟨_ :: items, last, hlines, congrArg (_ :: ·) hitems,
        fun more => congrArg (_ :: ·) (hmore more)⟩

/-- Nothing is reported about segments exactly if none of them is a fault. -/
theorem errors_itemsFrom_eq_nil_iff (segs : List Segment) (line : Nat) :
    (itemsFrom line segs).filterMap Item.error? = [] ↔
      ∀ s ∈ segs, ∀ fault, s.meaning ≠ .fault fault := by
  induction segs generalizing line with
  | nil => exact ⟨fun _ s hs => absurd hs List.not_mem_nil, fun _ => rfl⟩
  | cons s segs ih =>
    rw [List.forall_mem_cons, ← ih (line + s.newlines)]
    obtain ⟨text, meaning⟩ := s
    cases meaning with
    | nothing | token => exact ⟨fun h => ⟨fun fault heq => (by cases heq), h⟩, fun h => h.2⟩
    | fault fault => exact ⟨fun h => (by cases h), fun h => absurd rfl (h.1 fault)⟩

/-- The lines by which a source moves down what is appended to it on a new line. -/
def linesOf (source : String) : Nat := 1 + source.toList.count '\n'

/-- Two sources with a line end between them. -/
def joinLines (source source' : String) : String := source ++ "\n" ++ source'

section Sources

variable {source source' : String}

/-- `segments_append_newline` for sources that nothing is wrong with. -/
theorem segments_joinLines (h : Error.ofSource source = []) :
    segments (joinLines source source').toList =
      segments source.toList ++ ⟨['\n'], .nothing⟩ :: segments source'.toList := by
  have hsegs := (errors_itemsFrom_eq_nil_iff _ _).1 h
  have hlist : (joinLines source source').toList = source.toList ++ '\n' :: source'.toList := by
    simp [joinLines]
  rw [hlist, segments_append_newline _ _ fun s hs => hsegs s hs _]

/-- Nothing is wrong with the segments of two sources that nothing is wrong with. -/
theorem Error.ofSource_joinLines (h : Error.ofSource source = [])
    (h' : Error.ofSource source' = []) : Error.ofSource (joinLines source source') = [] := by
  refine (errors_itemsFrom_eq_nil_iff _ _).2 ?_
  rw [segments_joinLines h]
  intro s hs fault hfault
  obtain hs | hs := List.mem_append.1 hs
  · exact (errors_itemsFrom_eq_nil_iff _ _).1 h s hs fault hfault
  · obtain rfl | hs := List.mem_cons.1 hs
    · cases hfault
    · exact (errors_itemsFrom_eq_nil_iff _ _).1 h' s hs fault hfault

/-- The tokens of two sources: those of the first without its end, and those of the second
    further down. -/
theorem Token.exists_ofSource_joinLines (h : Error.ofSource source = []) (source' : String) :
    ∃ body last, Token.ofSource source = body ++ [⟨.eof, "", last⟩] ∧
      (∀ t ∈ body, t.isEof = false) ∧
      Token.ofSource (joinLines source source') =
        body ++ (Token.ofSource source').map (Token.down (linesOf source)) := by
  obtain ⟨items, last, hlast, hitems, hmore⟩ :=
    exists_itemsFrom_append (segments source.toList) 1
  rw [flatMap_text_segments] at hlast
  have hlines : last + 1 = 1 + linesOf source := by
    unfold linesOf
    omega
  have hsource : Token.ofSource source = items.filterMap Item.token? ++ [⟨.eof, "", last⟩] := by
    unfold Token.ofSource Token.scan
    rw [hitems, List.filterMap_append]
    rfl
  refine ⟨items.filterMap Item.token?, last, hsource, ?_, ?_⟩
  · obtain ⟨body, last', hbody, heof⟩ := Token.exists_ofSource source
    obtain ⟨rfl, -⟩ := List.append_inj' (hsource.symm.trans hbody) rfl
    exact heof
  · unfold Token.ofSource Token.scan
    rw [segments_joinLines h, hmore, List.filterMap_append, ← tokens_itemsFrom_add, ← hlines]
    rfl

end Sources

/-! ### Trees but for their numbers -/

/-- A part of a tree with zero for the number of each node. -/
def Node.shape : Node → Node
  | .expr e => .expr e.shape
  | .exprs es => .exprs (Expr.shapeAll es)
  | .stmt s => .stmt s.shape
  | .stmts ss => .stmts (Stmt.shapeAll ss)
  | .function kind f => .function kind f.shape
  | .functions fs => .functions (FunDecl.shapeAll fs)

section Shapes

variable {τ : TokenLikeness}

/-- What is like a tree is like its `shape`: `Likeness.raw` asks nothing of numbers. -/
theorem Node.Like.shaped {around : List Bool} {n n' : Node}
    (h : Node.Like (.raw τ) around n n') : Node.Like (.raw τ) around n n'.shape := by
  induction h with
  | literal => exact .literal
  | group _ ihe => exact .group ihe
  | read h => exact .read (.free rfl h.rel)
  | thisRef h => exact .thisRef (.free rfl h.rel)
  | assign h _ ihe => exact .assign (.free rfl h.rel) ihe
  | unary ht _ ihe => exact .unary ht ihe
  | binary ht _ _ iha ihb => exact .binary ht iha ihb
  | logical ht _ _ iha ihb => exact .logical ht iha ihb
  | conditional ht _ _ _ ihc iha ihb => exact .conditional ht ihc iha ihb
  | call ht _ _ ihe ihes => exact .call ht ihe ihes
  | get ht _ ihe => exact .get ht ihe
  | set ht _ _ iha ihb => exact .set ht iha ihb
  | lambda _ ihf => exact .lambda ihf
  | noExprs => exact .noExprs
  | exprs _ _ ihe ihes => exact .exprs ihe ihes
  | expr _ ihe => exact .expr ihe
  | print _ ihe => exact .print ihe
  | varDecl hname => exact .varDecl hname
  | varInit hname _ ihe => exact .varInit hname ihe
  | block marked _ ihbody => exact .block marked ihbody
  | ifThen _ _ ihc iha => exact .ifThen ihc iha
  | ifElse _ _ _ ihc iha ihb => exact .ifElse ihc iha ihb
  | whileLoop _ _ ihc iha => exact .whileLoop ihc iha
  | funDecl hname _ ihf => exact .funDecl hname ihf
  | ret ht => exact .ret ht
  | retValue ht _ ihe => exact .retValue ht ihe
  | classDecl ht hname _ ihmethods => exact .classDecl ht hname ihmethods
  | noStmts => exact .noStmts
  | stmts _ _ ihs ihss => exact .stmts ihs ihss
  | @function _ _ _ decl' marked hname hparams _ ihbody =>
    obtain ⟨name?, params, body⟩ := decl'
    exact .function marked hname hparams ihbody
  | noFunctions => exact .noFunctions
  | functions _ _ ihf ihfs => exact .functions ihf ihfs

mutual

/-- The converse of `Node.Like.shaped`, by recursion on the tree that has the numbers. -/
theorem Expr.like_of_shape {around : List Bool} {n : Node} (e : Expr)
    (h : Node.Like (.raw τ) around n (.expr e.shape)) :
    Node.Like (.raw τ) around n (.expr e) := by
  cases e with
  | literal value => exact h
  | group e =>
    cases h with
    | group h => exact .group (Expr.like_of_shape e h)
  | «variable» id name =>
    cases h with
    | read h => exact .read (.free rfl h.rel)
  | thisRef id name =>
    cases h with
    | thisRef h => exact .thisRef (.free rfl h.rel)
  | assign id name e =>
    cases h with
    | assign h he => exact .assign (.free rfl h.rel) (Expr.like_of_shape e he)
  | unary op e =>
    cases h with
    | unary ht h => exact .unary ht (Expr.like_of_shape e h)
  | binary a op b =>
    cases h with
    | binary ht ha hb => exact .binary ht (Expr.like_of_shape a ha) (Expr.like_of_shape b hb)
  | logical a op b =>
    cases h with
    | logical ht ha hb => exact .logical ht (Expr.like_of_shape a ha) (Expr.like_of_shape b hb)
  | conditional c q a b =>
    cases h with
    | conditional ht hc ha hb =>
      exact .conditional ht (Expr.like_of_shape c hc) (Expr.like_of_shape a ha)
        (Expr.like_of_shape b hb)
  | call e paren es =>
    cases h with
    | call ht he hes => exact .call ht (Expr.like_of_shape e he) (Expr.like_of_shapeAll es hes)
  | get e name =>
    cases h with
    | get ht h => exact .get ht (Expr.like_of_shape e h)
  | set e name v =>
    cases h with
    | set ht he hv => exact .set ht (Expr.like_of_shape e he) (Expr.like_of_shape v hv)
  | function f =>
    cases h with
    | lambda h => exact .lambda (FunDecl.like_of_shape f h)

/-- `Expr.like_of_shape` for the arguments of a call. -/
theorem Expr.like_of_shapeAll {around : List Bool} {n : Node} (es : List Expr)
    (h : Node.Like (.raw τ) around n (.exprs (Expr.shapeAll es))) :
    Node.Like (.raw τ) around n (.exprs es) := by
  cases es with
  | nil => exact h
  | cons e es =>
    cases h with
    | exprs he hes => exact .exprs (Expr.like_of_shape e he) (Expr.like_of_shapeAll es hes)

/-- `Expr.like_of_shape` for statements. -/
theorem Stmt.like_of_shape {around : List Bool} {n : Node} (s : Stmt)
    (h : Node.Like (.raw τ) around n (.stmt s.shape)) :
    Node.Like (.raw τ) around n (.stmt s) := by
  cases s with
  | expr e =>
    cases h with
    | expr h => exact .expr (Expr.like_of_shape e h)
  | print e =>
    cases h with
    | print h => exact .print (Expr.like_of_shape e h)
  | varDecl name e =>
    cases e with
    | none => exact h
    | some e =>
      cases h with
      | varInit hname h => exact .varInit hname (Expr.like_of_shape e h)
  | block body =>
    cases h with
    | block marked h => exact .block marked (Stmt.like_of_shapeAll body h)
  | ifElse c a b =>
    cases b with
    | none =>
      cases h with
      | ifThen hc ha => exact .ifThen (Expr.like_of_shape c hc) (Stmt.like_of_shape a ha)
    | some b =>
      cases h with
      | ifElse hc ha hb =>
        exact .ifElse (Expr.like_of_shape c hc) (Stmt.like_of_shape a ha)
          (Stmt.like_of_shape b hb)
  | whileLoop c a =>
    cases h with
    | whileLoop hc ha => exact .whileLoop (Expr.like_of_shape c hc) (Stmt.like_of_shape a ha)
  | funDecl f =>
    cases h with
    | funDecl hname h => exact .funDecl hname (FunDecl.like_of_shape f h)
  | ret keyword e =>
    cases e with
    | none => exact h
    | some e =>
      cases h with
      | retValue ht h => exact .retValue ht (Expr.like_of_shape e h)
  | classDecl name methods =>
    cases h with
    | classDecl ht hname h => exact .classDecl ht hname (FunDecl.like_of_shapeAll methods h)

/-- `Expr.like_of_shape` for lists of statements. -/
theorem Stmt.like_of_shapeAll {around : List Bool} {n : Node} (ss : List Stmt)
    (h : Node.Like (.raw τ) around n (.stmts (Stmt.shapeAll ss))) :
    Node.Like (.raw τ) around n (.stmts ss) := by
  cases ss with
  | nil => exact h
  | cons s ss =>
    cases h with
    | stmts hs hss => exact .stmts (Stmt.like_of_shape s hs) (Stmt.like_of_shapeAll ss hss)

/-- `Expr.like_of_shape` for functions. -/
theorem FunDecl.like_of_shape {around : List Bool} {n : Node} {kind : Body} (f : FunDecl)
    (h : Node.Like (.raw τ) around n (.function kind f.shape)) :
    Node.Like (.raw τ) around n (.function kind f) := by
  cases f with
  | mk name? params body =>
    cases h with
    | function marked hname hparams h =>
      exact .function marked hname hparams (Stmt.like_of_shapeAll body h)

/-- `Expr.like_of_shape` for methods. -/
theorem FunDecl.like_of_shapeAll {around : List Bool} {n : Node} (fs : List FunDecl)
    (h : Node.Like (.raw τ) around n (.functions (FunDecl.shapeAll fs))) :
    Node.Like (.raw τ) around n (.functions fs) := by
  cases fs with
  | nil => exact h
  | cons f fs =>
    cases h with
    | functions hf hfs =>
      exact .functions (FunDecl.like_of_shape f hf) (FunDecl.like_of_shapeAll fs hfs)

end

end Shapes

/-! ### Reading one token list behind the other -/

/-- Lists of declarations, one behind the other. -/
theorem Reads.append {ss ss' : List Stmt} {ts us : List Token} (h : Reads (.decls ss) ts)
    (h' : Reads (.decls ss') us) : Reads (.decls (ss ++ ss')) (ts ++ us) := by
  induction ss generalizing ts with
  | nil =>
    cases h with
    | noDecls => exact h'
  | cons s ss ih =>
    cases h with
    | moreDecls hs hss =>
      rw [List.append_assoc]
      exact .moreDecls hs (ih hss)

/-- `Stmt.shapeAll` is a map, so lists of statements may be split. -/
theorem Stmt.shapeAll_eq_map (ss : List Stmt) : Stmt.shapeAll ss = ss.map Stmt.shape := by
  induction ss with
  | nil => rfl
  | cons s ss ih => rw [Stmt.shapeAll, ih, List.map_cons]

/-- A report that is like the empty one is empty. -/
theorem Report.Like.eq_empty {c : Likeness} {r r' : Report} (h : Report.Like c r r')
    (hr : r = .empty) : r' = .empty := by
  subst hr
  have hlength : r'.errors.toList.length = 0 := h.length_eq.symm
  rw [Array.length_toList] at hlength
  exact Report.eq_empty hlength

section Joined

variable {τ : TokenLikeness} {T : Token → Prop} {body tokens moved : List Token} {last : Token}
  {nextNode nextNode' : NodeId}

/-- Behind the tokens of a program stand tokens like those of a second one. If nothing is reported
    about either program, then nothing is about both, and their statements are read one after the
    other, like those of each on its own. -/
theorem Program.parse_append (hbody : ∀ t ∈ body, t.isEof = false) (hlast : last.isEof = true)
    (hT : ∀ t ∈ body ++ [last], T t) (hend : tokens.any (·.isEof) = true)
    (hmoved : List.Forall₂ τ.rel tokens moved)
    (h : (parse (body ++ [last]) nextNode .empty).report = .empty)
    (h' : (parse tokens nextNode' .empty).report = .empty) (number : NodeId) :
    let p := parse (body ++ moved) number .empty
    p.report = .empty ∧ ∃ ss ss', p.statements = ss ++ ss' ∧
      Node.Alike (.same T) (.stmts (parse (body ++ [last]) nextNode .empty).statements)
        (.stmts ss) ∧
      ∀ n, Node.Alike τ (.stmts (parse tokens n .empty).statements) (.stmts ss') := by
  intro p
  have hnothing {τ : TokenLikeness} : Report.Like (.raw τ) .empty .empty := .nil
  have hfirst := (parse_alike (TokenLikeness.forall₂_same hT) (by simp [hlast]) hnothing nextNode
    nextNode).1
  have hsecond := fun n => parse_alike hmoved hend hnothing n nextNode'
  -- The two programs are read from their own tokens, and so the two together from all of them.
  have htokens {us : List Token} : (body ++ us).takeWhile (!·.isEof) =
      body ++ us.takeWhile (!·.isEof) :=
    List.takeWhile_append_of_pos fun t ht => by simp [hbody t ht]
  have hreads := reads_parse h
  rw [htokens, List.takeWhile_cons_of_neg (by simp [hlast]), List.append_nil] at hreads
  have hreads' := reads_parse ((hsecond nextNode').2.eq_empty h')
  have hboth := hreads.append hreads'
  rw [← htokens] at hboth
  obtain ⟨hempty, hshape⟩ := parse_of_reads number .empty hboth
  rw [Stmt.shapeAll_eq_map, Stmt.shapeAll_eq_map, List.map_append] at hshape
  obtain ⟨ss, ss', hss, hshape, hshape'⟩ := List.map_eq_append_iff.1 hshape
  rw [← Stmt.shapeAll_eq_map, ← Stmt.shapeAll_eq_map] at hshape hshape'
  refine ⟨hempty, ss, ss', hss, fun around => ?_, fun n around => ?_⟩
  · apply Stmt.like_of_shapeAll
    rw [hshape]
    exact (hfirst around).shaped
  · apply Stmt.like_of_shapeAll
    rw [hshape']
    exact ((hsecond n).1 around).shaped

end Joined

end Scriptlet
