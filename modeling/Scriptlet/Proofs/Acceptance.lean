import Scriptlet.Proofs.Completeness
import Scriptlet.Proofs.Grammar
import Scriptlet.Proofs.Soundness

namespace Scriptlet

/-!
# What is accepted

Nothing is reported about a token list exactly if the grammar derives it.

* `Reads.derivable` — whatever stands for a phrase is derived.
* `Reads.withElse` — an `else` behind an open statement always finds an `if`, although the grammar
  may have meant another one.
* `Nonterminal.readable`, `Derives.reads` — whatever is derived stands for a phrase.
* `Program.report_eq_iff_derives` — the reading accepts what the grammar derives, and no more.
-/

/-! ### From phrases to derivations -/

/-- The rule of the grammar for a tier. -/
def Tier.nonterminal : Tier → Nonterminal
  | disjunction => .logicOr
  | conjunction => .logicAnd
  | equality => .equality
  | comparison => .comparison
  | term => .term
  | factor => .factor

/-- The rule of the grammar for a level. -/
def Level.nonterminal : Level → Nonterminal
  | expression => .expression
  | assignment => .assignment
  | tier t => t.nonterminal
  | unary => .unary
  | call => .call
  | primary => .primary

namespace Derives

variable {a b : Ebnf} {ts us : List Token} {t : Token} {s : Symbol}

/-- A symbol, as a sequence of one token. -/
theorem sym (h : t.is s = true) : Derives (.sym s) [t] :=
  .terminal (x := .symbol s) h

/-- A name, as a sequence of one token. -/
theorem name (h : t.isIdentifier = true) : Derives .name [t] :=
  .terminal (x := .identifier) h

/-- A token in front. -/
theorem token {x : Terminal} (h : x.accepts t = true) (hb : Derives b us) :
    Derives (.seq (.terminal x) b) (t :: us) :=
  .seq (.terminal h) hb

/-- Nothing stands behind the first part. -/
theorem alone (h : Derives a ts) (hb : Derives b []) : Derives (.seq a b) ts := by
  have hseq := Derives.seq h hb
  rwa [List.append_nil] at hseq

/-- The last part of a sequence. -/
theorem last (h : Derives a ts) : Derives (.seq a .nothing) ts := h.alone .nothing

/-- The alternative with the number `i`. -/
theorem nth {as : List Ebnf} (i : Nat) (hi : (a :: as)[i]? = some b) (h : Derives b ts) :
    Derives (Ebnf.any a as) ts := by
  induction as generalizing a i with
  | nil =>
    cases i with
    | zero => cases hi; exact h
    | succ i => cases hi
  | cons a' as ih =>
    cases i with
    | zero => cases hi; exact .altLeft h
    | succ i => exact .altRight (ih i hi)

/-- A repetition goes on at its end as well. -/
theorem starSnoc (h : Derives (.star a) ts) (hus : Derives a us) :
    Derives (.star a) (ts ++ us) := by
  generalize hs : Ebnf.star a = s at h
  induction h with
  | starNil =>
    cases hs
    have := Derives.starCons hus .starNil
    rwa [List.append_nil] at this
  | starCons h' _ _ ih =>
    cases hs
    rw [List.append_assoc]
    exact .starCons h' (ih rfl)
  | _ => cases hs

/-- One of some symbols. -/
theorem symbol (h : t.is s = true) {o : Symbol} {ops : List Symbol} (hs : s ∈ o :: ops) :
    Derives (Ebnf.any (.sym o) (ops.map .sym)) [t] := by
  induction ops generalizing o with
  | nil =>
    obtain rfl := List.mem_singleton.1 hs
    exact .terminal h
  | cons o' ops ih =>
    rcases List.mem_cons.1 hs with rfl | hs
    · exact .altLeft (.terminal h)
    · exact .altRight (ih hs)

variable {operand : Nonterminal} {o : Symbol} {ops : List Symbol}

/-- A chain of one operand. -/
theorem chainOne (h : Derives (.rule operand) ts) : Derives (Ebnf.chain operand o ops) ts :=
  h.alone (last .starNil)

/-- One operand more. -/
theorem chainSnoc (h : Derives (Ebnf.chain operand o ops) ts) (ht : t.is s = true)
    (hs : s ∈ o :: ops) (hus : Derives (.rule operand) us) :
    Derives (Ebnf.chain operand o ops) (ts ++ t :: us) := by
  unfold Ebnf.chain Ebnf.all Ebnf.all at h
  cases h with
  | seq hfirst hrest =>
    cases hrest with
    | seq hstar hnothing =>
      cases hnothing
      rw [List.append_nil, List.append_assoc]
      exact .seq hfirst (last (starSnoc hstar (.seq (symbol ht hs) (last hus))))

end Derives

/-- The rule for a tier chains the next tighter level. -/
theorem Tier.body_nonterminal (t : Tier) : ∃ o ops,
    t.nonterminal.body = Ebnf.chain t.operand.nonterminal o ops ∧
      ∀ s ∈ t.symbols, s ∈ o :: ops := by
  cases t with
  | disjunction => exact ⟨_, _, rfl, fun _ h => h⟩
  | conjunction => exact ⟨_, _, rfl, fun _ h => h⟩
  | equality => exact ⟨_, _, rfl, fun _ h => h⟩
  | comparison => exact ⟨_, _, rfl, fun _ h => h⟩
  | term => exact ⟨_, _, rfl, fun _ h => h⟩
  -- The rule names the two symbols in the other order.
  | factor => exact ⟨_, _, rfl, by decide⟩

/-- What the grammar derives for a phrase. -/
def Phrase.Derivable : Phrase → List Token → Prop
  | .expr l _, ts => Derives (.rule l.nonterminal) ts
  | .option _, ts => Derives (.opt (.rule .expression)) ts
  | .arguments es, ts => es = [] ∨ ∀ k, es.length ≤ k + 1 →
    Derives (.commaSeparated (k + 1) (.rule .assignment)) ts
  | .parameters ps, ts => ps = [] ∨ ∀ k, ps.length ≤ k + 1 →
    Derives (.commaSeparated (k + 1) .name) ts
  | .lambda _ _, ts => Derives (.all [.sym .leftParen, .opt (.rule .parameters),
    .sym .rightParen, .rule .block]) ts
  | .stmt _ _, ts => Derives (.rule .statement) ts
  | .varDecl _, ts => Derives (.rule .varDecl) ts
  | .first _, ts => Derives (.any (.rule .varDecl) [.rule .exprStmt, .sym .semicolon]) ts
  | .decl _, ts => Derives (.rule .declaration) ts
  | .decls _, ts => Derives (.star (.rule .declaration)) ts
  | .method _, ts => Derives (.rule .function) ts
  | .methods _, ts => Derives (.star (.rule .function)) ts

namespace Derives

variable {a : Ebnf} {ts us : List Token} {k : Nat}

/-- One entry, where more may follow. -/
theorem commaOne (h : Derives a ts) : Derives (Ebnf.commaSeparated (k + 1) a) ts :=
  h.alone (last .atMostNil)

/-- Entries behind one that a comma follows. There are two at least, so two are allowed. -/
theorem commaCons {α : Type} {x y : α} {xs : List α} {comma : Token} (h : Derives a ts)
    (hcomma : comma.is .comma = true)
    (hs : y :: xs = [] ∨ ∀ k, (y :: xs).length ≤ k + 1 → Derives (.commaSeparated (k + 1) a) us)
    (k : Nat) (hk : (x :: y :: xs).length ≤ k + 1) :
    Derives (.commaSeparated (k + 1) a) (ts ++ comma :: us) := by
  rw [List.length_cons] at hk
  cases k with
  | zero => simp at hk
  | succ k =>
    have hrest := hs.resolve_left (List.cons_ne_nil _ _) k (by omega)
    unfold Ebnf.commaSeparated Ebnf.all Ebnf.all at hrest
    cases hrest with
    | seq hfirst hrest =>
      cases hrest with
      | seq hmost hnothing =>
        cases hnothing
        rw [List.append_nil]
        exact .seq h (last (.atMostCons (.seq (sym hcomma) (last hfirst)) hmost))

/-- A block, with its braces. -/
theorem block {lb rb : Token} (hlb : lb.is .leftBrace = true)
    (h : Derives (.star (.rule .declaration)) ts) (hrb : rb.is .rightBrace = true) :
    Derives (.rule .block) (lb :: (ts ++ [rb])) :=
  .rule (.token hlb (.seq h (last (.terminal hrb))))

/-- Entries in parentheses, which may be missing. -/
theorem optList {α : Type} {xs : List α} {r : Nonterminal}
    (hr : r.body = .commaSeparated Rule.maxArity a) (hnil : xs = [] → ts = [])
    (h : xs = [] ∨ ∀ k, xs.length ≤ k + 1 → Derives (.commaSeparated (k + 1) a) ts)
    (hlength : xs.length ≤ Rule.maxArity) : Derives (.opt (.rule r)) ts := by
  rcases h with hxs | h
  · cases hnil hxs
    exact .optNone
  · exact .optSome (.rule (hr ▸ h (Rule.maxArity - 1) hlength))

/-- What a tighter level derives, the looser one does. -/
theorem lift {l l' : Level} (hl : l.next? = some l') (h : Derives (.rule l'.nonterminal) ts) :
    Derives (.rule l.nonterminal) ts := by
  cases l with
  | expression => cases hl; exact .rule (chainOne h)
  | assignment => cases hl; exact .rule (.altRight (.altRight h))
  | tier t =>
    cases hl
    obtain ⟨o, ops, hbody, -⟩ := t.body_nonterminal
    exact .rule (show Derives t.nonterminal.body ts from hbody ▸ chainOne h)
  | unary => cases hl; exact .rule (.altRight h)
  | call =>
    cases hl
    exact .rule (h.alone (last .starNil))
  | primary => cases hl

/-- A call or an access of a property behind a call. -/
theorem callSnoc (h : Derives (.rule .call) ts)
    (hus : Derives (.any (.all [.sym .leftParen, .opt (.rule .arguments), .sym .rightParen])
      [.all [.sym .dot, .name]]) us) : Derives (.rule .call) (ts ++ us) := by
  cases h with
  | rule h =>
    unfold Nonterminal.body Ebnf.all Ebnf.all at h
    cases h with
    | seq hfirst hrest =>
      cases hrest with
      | seq hstar hnothing =>
        cases hnothing
        rw [List.append_nil, List.append_assoc]
        exact .rule (.seq hfirst (last (starSnoc hstar hus)))

/-- The comma is the loosest operator. -/
theorem comma {op : Token} (h : Derives (.rule .expression) ts) (hop : op.is .comma = true)
    (hus : Derives (.rule .assignment) us) : Derives (.rule .expression) (ts ++ op :: us) := by
  cases h with
  | rule h =>
    have hchain : Derives (.chain .assignment .comma []) ts := h
    exact .rule (chainSnoc hchain hop List.mem_cons_self hus)

/-- By `Tier.body_nonterminal`, the operators of a tier are those of its rule. -/
theorem operator {t : Tier} {op : Token} (h : Derives (.rule t.nonterminal) ts)
    (hop : t.has op = true) (hus : Derives (.rule t.operand.nonterminal) us) :
    Derives (.rule t.nonterminal) (ts ++ op :: us) := by
  obtain ⟨o, ops, hbody, hops⟩ := t.body_nonterminal
  unfold Tier.has at hop
  split at hop
  · next s hkind =>
    have hs : op.is s = true := by simp [Token.is, hkind]
    cases h with
    | rule h =>
      rw [hbody] at h
      exact .rule (hbody ▸ chainSnoc h hs (hops s (of_decide_eq_true hop)) hus)
  · exact absurd hop Bool.false_ne_true

/-- A literal is a primary expression. -/
theorem literal {t : Token} {v : Literal} (h : t.literal? = some v) :
    Derives (.rule .primary) [t] := by
  unfold Token.literal? at h
  split at h
  · next hkind =>
    exact .rule (.nth 3 rfl (.terminal (by simp [Terminal.accepts, Token.is, hkind])))
  · next hkind =>
    exact .rule (.nth 2 rfl (.terminal (by simp [Terminal.accepts, Token.is, hkind])))
  · next hkind =>
    exact .rule (.nth 4 rfl (.terminal (by simp [Terminal.accepts, Token.is, hkind])))
  · next hkind => exact .rule (.nth 0 rfl (.terminal (by simp [Terminal.accepts, hkind])))
  · next hkind => exact .rule (.nth 1 rfl (.terminal (by simp [Terminal.accepts, hkind])))
  · cases h

end Derives

/-- **Every phrase is derived.** -/
theorem Reads.derivable {ph : Phrase} {ts : List Token} (h : Reads ph ts) :
    ph.Derivable ts := by
  induction h with
  | lift hl _ ih => exact Derives.lift hl ih
  | comma _ hop _ iha ihb => exact Derives.comma iha hop ihb
  | assign hname heq _ ih =>
    exact .rule (.altLeft (.seq .optNone (.token hname (.token heq (.last ih)))))
  | @set _ dot name eq _ _ _ _ hdot hname heq _ iho ihe =>
    have := Derives.seq (.optSome (.seq iho (.last (.sym hdot))))
      (.seq (.name hname) (.seq (.sym heq) (.last ihe)))
    rw [List.append_assoc] at this
    exact .rule (.altLeft this)
  | conditional _ hq _ hcolon _ ihc iha ihb =>
    exact .rule (.altRight (.altLeft (.seq ihc (.token hq (.seq iha (.token hcolon (.last ihb)))))))
  | operator _ hop _ iha ihb => exact Derives.operator iha hop ihb
  | unary hop _ ih =>
    rcases Bool.or_eq_true_iff.1 hop with h | h
    · exact .rule (.altLeft (.seq (.altLeft (.sym h)) (.last ih)))
    · exact .rule (.altLeft (.seq (.altRight (.sym h)) (.last ih)))
  | call _ hlp hes hlength hrp ihf ihes =>
    refine Derives.callSnoc ihf (.altLeft (.token hlp (.seq (.optList rfl ?_ ihes hlength)
      (.last (.terminal hrp)))))
    rintro rfl
    cases hes
    rfl
  | get _ hdot hname iho =>
    exact Derives.callSnoc iho (.altRight (.token hdot (.last (.terminal hname))))
  | literal h => exact Derives.literal h
  | this h => exact .rule (.nth 5 rfl (.terminal h))
  | name h => exact .rule (.nth 6 rfl (.terminal h))
  | group hlp _ hrp ih =>
    exact .rule (.nth 7 rfl (.token hlp (.seq ih (.last (.terminal hrp)))))
  | function hkw _ ih => exact .rule (.nth 8 rfl (.token hkw ih))
  | absent => exact .optNone
  | present _ ih => exact .optSome ih
  | noArguments => exact .inl rfl
  | oneArgument _ ih => exact .inr fun k _ => .commaOne ih
  | moreArguments _ hcomma _ ih ihs => exact .inr (.commaCons ih hcomma ihs)
  | noParameters => exact .inl rfl
  | oneParameter h => exact .inr fun k _ => .commaOne (.name h)
  | moreParameters h hcomma _ ih => exact .inr (.commaCons (.name h) hcomma ih)
  | lambda hlp hps hlength hrp hlb _ hrb ihps ihbody =>
    refine .token hlp (.seq (.optList rfl ?_ ihps hlength)
      (.token hrp (.last (.block hlb ihbody hrb))))
    rintro rfl
    cases hps
    rfl
  | method hname _ ih => exact .rule (.token hname ih)
  | noMethods => exact .starNil
  | moreMethods _ _ ih ihs => exact .starCons ih ihs
  | exprStmt _ hsemi ih => exact .rule (.nth 0 rfl (.rule (.seq ih (.last (.terminal hsemi)))))
  | print hkw _ hsemi ih =>
    exact .rule (.nth 3 rfl (.rule (.token hkw (.seq ih (.last (.terminal hsemi))))))
  | ret hkw _ hsemi ih =>
    exact .rule (.nth 4 rfl (.rule (.token hkw (.seq ih (.last (.terminal hsemi))))))
  | block hlb _ hrb ih => exact .rule (.nth 6 rfl (.block hlb ih hrb))
  | ifThen hkw hlp _ hrp _ ihc iha =>
    exact .rule (.nth 2 rfl (.rule (.token hkw (.token hlp (.seq ihc
      (.token hrp (Derives.alone iha (.last .optNone))))))))
  | ifElse hkw hlp _ hrp _ hel _ ihc iha ihb =>
    exact .rule (.nth 2 rfl (.rule (.token hkw (.token hlp (.seq ihc
      (.token hrp (.seq iha (.last (.optSome (.token hel (.last ihb)))))))))))
  | whileLoop hkw hlp _ hrp _ ihc iha =>
    exact .rule (.nth 5 rfl (.rule (.token hkw (.token hlp (.seq ihc (.token hrp (.last iha)))))))
  | forLoop hkw hlp _ _ hsemi _ hrp _ ihf ihc ihi iha =>
    exact .rule (.nth 1 rfl (.rule (.token hkw (.token hlp (.seq ihf (.seq ihc
      (.token hsemi (.seq ihi (.token hrp (.last iha))))))))))
  | noFirst hsemi => exact .altRight (.altRight (.terminal hsemi))
  | firstVar _ ih => exact .altLeft ih
  | firstExpr _ hsemi ih => exact .altRight (.altLeft (.rule (.seq ih (.last (.terminal hsemi)))))
  | varDecl hkw hname hsemi =>
    exact .rule (.token hkw (.token hname (.seq .optNone (.last (.terminal hsemi)))))
  | varInit hkw hname heq _ hsemi ih =>
    exact .rule (.token hkw (.token hname (.seq (.optSome (.seq (.sym heq) (.last ih)))
      (.last (.terminal hsemi)))))
  | declVar _ ih => exact .rule (.nth 2 rfl ih)
  | declFun hkw _ ih => exact .rule (.nth 1 rfl (.rule (.token hkw (.last ih))))
  | declClass hkw hname hlb _ hrb ih =>
    exact .rule (.nth 0 rfl (.rule (.token hkw (.token hname (.token hlb (.seq ih
      (.last (.terminal hrb))))))))
  | declStmt _ ih => exact .rule (.nth 3 rfl ih)
  | noDecls => exact .starNil
  | moreDecls _ _ ih ihs => exact .starCons ih ihs

/-! ### From derivations to phrases -/

/-- **The nearest `if`.** Behind an open statement, an `else` goes to the innermost `if` that has
    none, so the two can be read as one statement. -/
theorem Reads.withElse {s b : Stmt} {o : Bool} {us vs : List Token} {el : Token}
    (h : Reads (.stmt true s) us) (hel : el.is .elseKw = true) (hb : Reads (.stmt o b) vs) :
    ∃ o' s', Reads (.stmt o' s') (us ++ el :: vs) := by
  generalize hph : Phrase.stmt true s = ph at h
  induction h generalizing s with
  | @ifThen _ _ _ _ o' _ _ _ hkw hlp hc hrp ha _ iha =>
    cases o' with
    | false =>
      have := Reads.ifElse hkw hlp hc hrp ha hel hb
      exact ⟨_, _, by simpa using this⟩
    -- An `if` inside of the branch is nearer.
    | true =>
      obtain ⟨_, _, h⟩ := iha rfl
      have := Reads.ifThen hkw hlp hc hrp h
      exact ⟨_, _, by simpa using this⟩
  | ifElse hkw hlp hc hrp ha hel' _ _ _ ihb =>
    cases hph
    obtain ⟨_, _, h⟩ := ihb rfl
    have := Reads.ifElse hkw hlp hc hrp ha hel' h
    exact ⟨_, _, by simpa using this⟩
  | whileLoop hkw hlp hc hrp _ _ iha =>
    cases hph
    obtain ⟨_, _, h⟩ := iha rfl
    have := Reads.whileLoop hkw hlp hc hrp h
    exact ⟨_, _, by simpa using this⟩
  | forLoop hkw hlp hfirst hc hsemi hi hrp _ _ _ _ iha =>
    -- The tree of a `for` loop says nothing of its body, but its phrase does.
    injection hph with ho _
    subst ho
    obtain ⟨_, _, h⟩ := iha rfl
    have := Reads.forLoop hkw hlp hfirst hc hsemi hi hrp h
    exact ⟨_, _, by simpa using this⟩
  | _ => cases hph

/-- What a derived token list can be read as. -/
def Nonterminal.Readable : Nonterminal → List Token → Prop
  | .program, ts => ∃ ss, Reads (.decls ss) ts
  | .declaration, ts | .classDecl, ts | .funDecl, ts => ∃ s, Reads (.decl s) ts
  | .function, ts => ∃ f, Reads (.method f) ts
  | .varDecl, ts => ∃ s, Reads (.varDecl s) ts
  | .exprStmt, ts => ∃ e us semi, ts = us ++ [semi] ∧ Reads (.expr .expression e) us ∧
    semi.is .semicolon = true
  | .statement, ts | .forStmt, ts | .ifStmt, ts | .printStmt, ts | .returnStmt, ts
  | .whileStmt, ts => ∃ o s, Reads (.stmt o s) ts
  | .block, ts => ∃ lb body us rb, ts = lb :: (us ++ [rb]) ∧ lb.is .leftBrace = true ∧
    Reads (.decls body) us ∧ rb.is .rightBrace = true
  | .parameters, ts => ∃ ps, Reads (.parameters ps) ts ∧ ps.length ≤ Rule.maxArity
  | .arguments, ts => ∃ es, Reads (.arguments es) ts ∧ es.length ≤ Rule.maxArity
  | .expression, ts => ∃ e, Reads (.expr .expression e) ts
  | .assignment, ts => ∃ e, Reads (.expr .assignment e) ts
  | .logicOr, ts => ∃ e, Reads (.expr (.tier .disjunction) e) ts
  | .logicAnd, ts => ∃ e, Reads (.expr (.tier .conjunction) e) ts
  | .equality, ts => ∃ e, Reads (.expr (.tier .equality) e) ts
  | .comparison, ts => ∃ e, Reads (.expr (.tier .comparison) e) ts
  | .term, ts => ∃ e, Reads (.expr (.tier .term) e) ts
  | .factor, ts => ∃ e, Reads (.expr (.tier .factor) e) ts
  | .unary, ts => ∃ e, Reads (.expr .unary e) ts
  | .call, ts => ∃ e, Reads (.expr .call e) ts
  | .primary, ts => ∃ e, Reads (.expr .primary e) ts

namespace Nonterminal

variable {ts : List Token} {o : Symbol} {ops : List Symbol} {r : Nonterminal}

/-- A repetition that adds to an expression on its right. -/
theorem readable_star {l : Level} {P : List Token → Prop}
    (hstep : ∀ e ts us, Reads (.expr l e) ts → P us → ∃ e', Reads (.expr l e') (ts ++ us))
    (tss : List (List Token)) (htss : ∀ us ∈ tss, P us) {e : Expr} (h : Reads (.expr l e) ts) :
    ∃ e', Reads (.expr l e') (ts ++ tss.flatten) := by
  induction tss generalizing e ts with
  | nil => exact ⟨e, by simpa using h⟩
  | cons us tss ih =>
    obtain ⟨hus, htss⟩ := List.forall_mem_cons.1 htss
    obtain ⟨e', h'⟩ := hstep e ts us h hus
    obtain ⟨e'', h''⟩ := ih htss h'
    exact ⟨e'', by simpa using h''⟩

/-- One of some symbols. -/
theorem lang_any {ρ : Nonterminal → List Token → Prop}
    (h : (Ebnf.any (.sym o) (ops.map .sym)).lang ρ ts) :
    ∃ s ∈ o :: ops, ∃ t, ts = [t] ∧ t.is s = true := by
  induction ops generalizing o with
  | nil =>
    obtain ⟨t, rfl, ht⟩ := h
    exact ⟨o, List.mem_cons_self, t, rfl, ht⟩
  | cons o' ops ih =>
    rcases h with ⟨t, rfl, ht⟩ | h
    · exact ⟨o, List.mem_cons_self, t, rfl, ht⟩
    · obtain ⟨s, hs, ht⟩ := ih h
      exact ⟨s, List.mem_cons_of_mem o hs, ht⟩

/-- Operands with operators between them, if an operand can be added on the right. -/
theorem readable_chain {l l' : Level} (hl : l.next? = some l')
    (hr : ∀ us, r.Readable us → ∃ e, Reads (.expr l' e) us)
    (hstep : ∀ e e' t s us vs, Reads (.expr l e) us → s ∈ o :: ops → t.is s = true →
      Reads (.expr l' e') vs → ∃ e'', Reads (.expr l e'') (us ++ t :: vs))
    (h : (Ebnf.chain r o ops).lang Readable ts) : ∃ e, Reads (.expr l e) ts := by
  obtain ⟨us, _, rfl, hus, _, _, rfl, ⟨tss, rfl, htss⟩, rfl⟩ := h
  obtain ⟨e, he⟩ := hr us hus
  rw [List.append_nil]
  refine readable_star (fun e ts us he hus => ?_) tss htss (.lift hl he)
  obtain ⟨_, _, rfl, hop, vs, _, rfl, hvs, rfl⟩ := hus
  obtain ⟨s, hs, t, rfl, ht⟩ := lang_any hop
  obtain ⟨e', he'⟩ := hr vs hvs
  rw [List.append_nil]
  exact hstep e e' t s ts vs he hs ht he'

/-- The rule of a tier. -/
theorem readable_tier (t : Tier) (hr : ∀ us, r.Readable us → ∃ e, Reads (.expr t.operand e) us)
    (hops : ∀ s ∈ o :: ops, s ∈ t.symbols) (h : (Ebnf.chain r o ops).lang Readable ts) :
    ∃ e, Reads (.expr (.tier t) e) ts := by
  refine readable_chain rfl hr (fun e e' op s us vs he hs hop he' => ?_) h
  have hhas : t.has op = true := by
    rw [Tier.has, Token.kind_of_is hop]
    exact decide_eq_true (hops s hs)
  exact ⟨_, .operator he hhas he'⟩

/-- The target of an assignment is a name or a property. -/
theorem readable_assignment (h : (body .assignment).lang Readable ts) :
    ∃ e, Reads (.expr .assignment e) ts := by
  rcases h with
    ⟨_, _, rfl, htarget, _, _, rfl, ⟨name, rfl, hname⟩, _, _, rfl, ⟨eq, rfl, heq⟩, _, _, rfl,
      ⟨e, he⟩, rfl⟩ |
    ⟨_, _, rfl, ⟨c, hc⟩, _, _, rfl, ⟨q, rfl, hq⟩, _, _, rfl, ⟨a, ha⟩, _, _, rfl,
      ⟨colon, rfl, hcolon⟩, _, _, rfl, ⟨b, hb⟩, rfl⟩ |
    ⟨e, he⟩
  · rcases htarget with rfl | ⟨_, _, rfl, ⟨o, ho⟩, _, _, rfl, ⟨dot, rfl, hdot⟩, rfl⟩
    · exact ⟨.assign 0 name e, by simpa using Reads.assign hname heq he⟩
    · exact ⟨_, by simpa using Reads.set ho hdot hname heq he⟩
  · exact ⟨_, by simpa using Reads.conditional hc hq ha hcolon hb⟩
  · exact ⟨e, .lift rfl he⟩

/-- Calls and properties are read from the left. -/
theorem readable_call (h : (body .call).lang Readable ts) : ∃ e, Reads (.expr .call e) ts := by
  obtain ⟨us, _, rfl, ⟨e, he⟩, _, _, rfl, ⟨tss, rfl, htss⟩, rfl⟩ := h
  rw [List.append_nil]
  refine readable_star (fun e ts us he hus => ?_) tss htss (.lift rfl he)
  rcases hus with
    ⟨_, _, rfl, ⟨lp, rfl, hlp⟩, _, _, rfl, harguments, _, _, rfl, ⟨rp, rfl, hrp⟩, rfl⟩ |
    ⟨_, _, rfl, ⟨dot, rfl, hdot⟩, _, _, rfl, ⟨name, rfl, hname⟩, rfl⟩
  · rcases harguments with rfl | ⟨es, hes, hlength⟩
    · exact ⟨_, .call he hlp .noArguments (Nat.zero_le _) hrp⟩
    · exact ⟨_, .call he hlp hes hlength hrp⟩
  · exact ⟨_, .get he hdot hname⟩

/-- An operator, or a call. -/
theorem readable_unary (h : (body .unary).lang Readable ts) : ∃ e, Reads (.expr .unary e) ts := by
  rcases h with ⟨_, _, rfl, hop, _, _, rfl, ⟨e, he⟩, rfl⟩ | ⟨e, he⟩
  · rw [List.append_nil]
    rcases hop with ⟨op, rfl, hop⟩ | ⟨op, rfl, hop⟩
    · exact ⟨_, .unary (Bool.or_eq_true_iff.2 (.inl hop)) he⟩
    · exact ⟨_, .unary (Bool.or_eq_true_iff.2 (.inr hop)) he⟩
  · exact ⟨e, .lift rfl he⟩

/-- Entries with commas between them, if an entry can be added on the left. -/
theorem readable_commaSeparated {α : Type} {a : Ebnf} {one : α → List Token → Prop}
    {many : List α → List Token → Prop} {k : Nat} (ha : ∀ us, a.lang Readable us → ∃ x, one x us)
    (hone : ∀ x us, one x us → many [x] us)
    (hmore : ∀ x y ys comma us vs, one x us → comma.is .comma = true → many (y :: ys) vs →
      many (x :: y :: ys) (us ++ comma :: vs))
    (h : (Ebnf.commaSeparated (k + 1) a).lang Readable ts) :
    ∃ xs, many xs ts ∧ xs.length ≤ k + 1 := by
  obtain ⟨us, _, rfl, hus, _, _, rfl, ⟨tss, rfl, htss, hlength⟩, rfl⟩ := h
  obtain ⟨x, hx⟩ := ha us hus
  rw [List.append_nil]
  -- The entries behind the first are read one by one, each with the comma in front of it.
  have hentries : ∃ xs, xs.length = tss.length ∧ many (x :: xs) (us ++ tss.flatten) := by
    clear hlength hus
    induction tss generalizing x us with
    | nil => exact ⟨[], rfl, by simpa using hone x us hx⟩
    | cons vs tss ih =>
      obtain ⟨hvs, htss'⟩ := List.forall_mem_cons.1 htss
      obtain ⟨_, _, rfl, ⟨comma, rfl, hcomma⟩, ws, _, rfl, hws, rfl⟩ := hvs
      obtain ⟨y, hy⟩ := ha ws hws
      obtain ⟨ys, hys, hmany⟩ := ih ws htss' y hy
      exact ⟨y :: ys, by simp [hys], by simpa using hmore x y ys comma us _ hx hcomma hmany⟩
  obtain ⟨xs, hxs, hmany⟩ := hentries
  refine ⟨x :: xs, hmany, ?_⟩
  rw [List.length_cons, hxs]
  exact Nat.succ_le_succ hlength

/-- `readable_commaSeparated` for names. -/
theorem readable_parameters (h : (body .parameters).lang Readable ts) :
    ∃ ps, Reads (.parameters ps) ts ∧ ps.length ≤ Rule.maxArity := by
  refine readable_commaSeparated (a := .name) (fun _ h => h) ?_ ?_ h
  · rintro p _ ⟨rfl, hp⟩
    exact .oneParameter hp
  · rintro p q qs comma _ us ⟨rfl, hp⟩ hcomma hs
    exact .moreParameters hp hcomma hs

/-- The parameters and the body of a function. -/
theorem readable_lambda
    (h : (Ebnf.all [.sym .leftParen,
      .opt (.rule .parameters), .sym .rightParen, .rule .block]).lang Readable ts) :
    ∃ ps body, Reads (.lambda ps body) ts := by
  obtain ⟨_, _, rfl, ⟨lp, rfl, hlp⟩, _, _, rfl, hparameters, _, _, rfl, ⟨rp, rfl, hrp⟩, _, _, rfl,
    ⟨lb, body, us, rb, rfl, hlb, hbody, hrb⟩, rfl⟩ := h
  rw [List.append_nil]
  rcases hparameters with rfl | ⟨ps, hps, hlength⟩
  · exact ⟨_, _, .lambda hlp .noParameters (Nat.zero_le _) hrp hlb hbody hrb⟩
  · exact ⟨_, _, .lambda hlp hps hlength hrp hlb hbody hrb⟩

/-- The alternatives of a primary expression. -/
theorem readable_primary (h : (body .primary).lang Readable ts) :
    ∃ e, Reads (.expr .primary e) ts := by
  rcases h with ⟨t, rfl, ht⟩ | ⟨t, rfl, ht⟩ | ⟨t, rfl, ht⟩ | ⟨t, rfl, ht⟩ | ⟨t, rfl, ht⟩ |
    ⟨t, rfl, ht⟩ | ⟨t, rfl, ht⟩ | ⟨_, _, rfl, ⟨lp, rfl, hlp⟩, _, _, rfl, ⟨e, he⟩, _, _, rfl,
    ⟨rp, rfl, hrp⟩, rfl⟩ | ⟨_, _, rfl, ⟨kw, rfl, hkw⟩, hlambda⟩
  · simp only [Terminal.accepts] at ht
    split at ht
    · next x hkind => exact ⟨.literal (.number x), .literal (by simp [Token.literal?, hkind])⟩
    · exact absurd ht Bool.false_ne_true
  · simp only [Terminal.accepts] at ht
    split at ht
    · next x hkind => exact ⟨.literal (.string x), .literal (by simp [Token.literal?, hkind])⟩
    · exact absurd ht Bool.false_ne_true
  · exact ⟨.literal (.bool true), .literal (by simp [Token.literal?, Token.kind_of_is ht])⟩
  · exact ⟨.literal (.bool false), .literal (by simp [Token.literal?, Token.kind_of_is ht])⟩
  · exact ⟨.literal .nil, .literal (by simp [Token.literal?, Token.kind_of_is ht])⟩
  · exact ⟨.thisRef 0 t, .this ht⟩
  · exact ⟨.variable 0 t, .name ht⟩
  · exact ⟨_, .group hlp he hrp⟩
  · obtain ⟨ps, body, h⟩ := readable_lambda hlambda
    exact ⟨_, .function hkw h⟩

/-! #### Statements and declarations -/

/-- An expression that may be missing. -/
theorem readable_option (h : (Ebnf.opt (.rule .expression)).lang Readable ts) :
    ∃ e, Reads (.option e) ts := by
  rcases h with rfl | ⟨e, he⟩
  · exact ⟨none, .absent⟩
  · exact ⟨some e, .present he⟩

/-- The three clauses of a loop may be missing. -/
theorem readable_forStmt (h : (body .forStmt).lang Readable ts) : ∃ o s, Reads (.stmt o s) ts := by
  obtain ⟨_, _, rfl, ⟨kw, rfl, hkw⟩, _, _, rfl, ⟨lp, rfl, hlp⟩, _, _, rfl, hfirst, _, _, rfl, hc,
    _, _, rfl, ⟨semi, rfl, hsemi⟩, _, _, rfl, hi, _, _, rfl, ⟨rp, rfl, hrp⟩, _, _, rfl,
    ⟨o, s, hs⟩, rfl⟩ := h
  rw [List.append_nil]
  obtain ⟨c, hc⟩ := readable_option hc
  obtain ⟨i, hi⟩ := readable_option hi
  rcases hfirst with ⟨x, hx⟩ | ⟨e, us, semi', rfl, he, hsemi'⟩ | ⟨semi', rfl, hsemi'⟩
  · exact ⟨_, _, .forLoop hkw hlp (.firstVar hx) hc hsemi hi hrp hs⟩
  · exact ⟨_, _, .forLoop hkw hlp (.firstExpr he hsemi') hc hsemi hi hrp hs⟩
  · exact ⟨_, _, .forLoop hkw hlp (.noFirst hsemi') hc hsemi hi hrp hs⟩

/-- By `Reads.withElse`, an `else` finds its `if`. -/
theorem readable_ifStmt (h : (body .ifStmt).lang Readable ts) : ∃ o s, Reads (.stmt o s) ts := by
  obtain ⟨_, _, rfl, ⟨kw, rfl, hkw⟩, _, _, rfl, ⟨lp, rfl, hlp⟩, _, _, rfl, ⟨c, hc⟩, _, _, rfl,
    ⟨rp, rfl, hrp⟩, _, _, rfl, ⟨o, a, ha⟩, _, _, rfl, helse, rfl⟩ := h
  rcases helse with rfl | ⟨_, _, rfl, ⟨el, rfl, hel⟩, _, _, rfl, ⟨o', b, hb⟩, rfl⟩
  · exact ⟨_, _, by simpa using Reads.ifThen hkw hlp hc hrp ha⟩
  · cases o with
    | false => exact ⟨_, _, by simpa using Reads.ifElse hkw hlp hc hrp ha hel hb⟩
    -- The derivation gives the `else` to this `if`, but an `if` inside of the branch takes it.
    | true =>
      obtain ⟨_, _, h⟩ := ha.withElse hel hb
      exact ⟨_, _, by simpa using Reads.ifThen hkw hlp hc hrp h⟩

/-- The alternatives of a statement. -/
theorem readable_statement (h : (body .statement).lang Readable ts) :
    ∃ o s, Reads (.stmt o s) ts := by
  rcases h with ⟨e, us, semi, rfl, he, hsemi⟩ | h | h | h | h | h |
    ⟨lb, body, us, rb, rfl, hlb, hbody, hrb⟩
  · exact ⟨_, _, .exprStmt he hsemi⟩
  · exact h
  · exact h
  · exact h
  · exact h
  · exact h
  · exact ⟨_, _, .block hlb hbody hrb⟩

/-- What is repeated is read as a list. -/
theorem readable_many {α : Type} {P : α → List Token → Prop} {R : List α → List Token → Prop}
    (hnil : R [] []) (hcons : ∀ x xs us vs, P x us → R xs vs → R (x :: xs) (us ++ vs))
    {tss : List (List Token)} (htss : ∀ us ∈ tss, ∃ x, P x us) : ∃ xs, R xs tss.flatten := by
  induction tss with
  | nil => exact ⟨[], hnil⟩
  | cons us tss ih =>
    obtain ⟨⟨x, hx⟩, htss⟩ := List.forall_mem_cons.1 htss
    obtain ⟨xs, hxs⟩ := ih htss
    exact ⟨x :: xs, hcons x xs us _ hx hxs⟩

/-- `readable_many` for methods. -/
theorem readable_classDecl (h : (body .classDecl).lang Readable ts) : ∃ s, Reads (.decl s) ts := by
  obtain ⟨_, _, rfl, ⟨kw, rfl, hkw⟩, _, _, rfl, ⟨name, rfl, hname⟩, _, _, rfl, ⟨lb, rfl, hlb⟩,
    _, _, rfl, ⟨tss, rfl, htss⟩, _, _, rfl, ⟨rb, rfl, hrb⟩, rfl⟩ := h
  obtain ⟨fs, hfs⟩ := readable_many (R := fun fs => Reads (.methods fs)) .noMethods
    (fun _ _ _ _ hf hfs => .moreMethods hf hfs) htss
  exact ⟨_, .declClass hkw hname hlb hfs hrb⟩

/-- Declarations one after the other. -/
theorem readable_decls (h : (Ebnf.star (.rule .declaration)).lang Readable ts) :
    ∃ ss, Reads (.decls ss) ts := by
  obtain ⟨tss, rfl, htss⟩ := h
  exact readable_many (R := fun ss => Reads (.decls ss)) .noDecls
    (fun _ _ _ _ hs hss => .moreDecls hs hss) htss

/-- A variable with or without an initializer. -/
theorem readable_varDecl (h : (body .varDecl).lang Readable ts) : ∃ s, Reads (.varDecl s) ts := by
  obtain ⟨_, _, rfl, ⟨kw, rfl, hkw⟩, _, _, rfl, ⟨name, rfl, hname⟩, _, _, rfl, hinit, _, _, rfl,
    ⟨semi, rfl, hsemi⟩, rfl⟩ := h
  rcases hinit with rfl | ⟨_, _, rfl, ⟨eq, rfl, heq⟩, _, _, rfl, ⟨e, he⟩, rfl⟩
  · exact ⟨_, .varDecl hkw hname hsemi⟩
  · exact ⟨_, by simpa using Reads.varInit hkw hname heq he hsemi⟩

/-- What a rule derives from readable parts is readable. -/
theorem readable (r : Nonterminal) (ts : List Token) (h : r.body.lang Readable ts) :
    r.Readable ts := by
  cases r with
  | program => exact readable_decls h
  | declaration =>
    rcases h with h | h | ⟨s, hs⟩ | ⟨o, s, hs⟩
    · exact h
    · exact h
    · exact ⟨s, .declVar hs⟩
    · exact ⟨s, .declStmt hs⟩
  | classDecl => exact readable_classDecl h
  | funDecl =>
    obtain ⟨_, _, rfl, ⟨kw, rfl, hkw⟩, _, _, rfl, ⟨f, hf⟩, rfl⟩ := h
    exact ⟨_, by simpa using Reads.declFun hkw hf⟩
  | function =>
    obtain ⟨_, _, rfl, ⟨name, rfl, hname⟩, hlambda⟩ := h
    obtain ⟨ps, body, h⟩ := readable_lambda hlambda
    exact ⟨_, .method hname h⟩
  | varDecl => exact readable_varDecl h
  | statement => exact readable_statement h
  | exprStmt =>
    obtain ⟨us, _, rfl, ⟨e, he⟩, _, _, rfl, ⟨semi, rfl, hsemi⟩, rfl⟩ := h
    exact ⟨e, us, semi, rfl, he, hsemi⟩
  | forStmt => exact readable_forStmt h
  | ifStmt => exact readable_ifStmt h
  | printStmt =>
    obtain ⟨_, _, rfl, ⟨kw, rfl, hkw⟩, _, _, rfl, ⟨e, he⟩, _, _, rfl, ⟨semi, rfl, hsemi⟩, rfl⟩ := h
    exact ⟨_, _, .print hkw he hsemi⟩
  | returnStmt =>
    obtain ⟨_, _, rfl, ⟨kw, rfl, hkw⟩, _, _, rfl, he, _, _, rfl, ⟨semi, rfl, hsemi⟩, rfl⟩ := h
    obtain ⟨e, he⟩ := readable_option he
    exact ⟨_, _, .ret hkw he hsemi⟩
  | whileStmt =>
    obtain ⟨_, _, rfl, ⟨kw, rfl, hkw⟩, _, _, rfl, ⟨lp, rfl, hlp⟩, _, _, rfl, ⟨c, hc⟩, _, _, rfl,
      ⟨rp, rfl, hrp⟩, _, _, rfl, ⟨o, a, ha⟩, rfl⟩ := h
    exact ⟨_, _, by simpa using Reads.whileLoop hkw hlp hc hrp ha⟩
  | block =>
    obtain ⟨_, _, rfl, ⟨lb, rfl, hlb⟩, us, _, rfl, hbody, _, _, rfl, ⟨rb, rfl, hrb⟩, rfl⟩ := h
    obtain ⟨body, hbody⟩ := readable_decls hbody
    exact ⟨lb, body, us, rb, rfl, hlb, hbody, hrb⟩
  | parameters => exact readable_parameters h
  | expression =>
    refine readable_chain (r := .assignment) rfl (fun _ h => h)
      (fun e e' op s us vs he hs hop he' => ?_) h
    obtain rfl := List.mem_singleton.1 hs
    exact ⟨_, .comma he hop he'⟩
  | assignment => exact readable_assignment h
  -- The chains of binary operators differ in their operators and operands only.
  | logicOr => exact readable_tier .disjunction (r := .logicAnd) (fun _ h => h) (fun _ h => h) h
  | logicAnd => exact readable_tier .conjunction (r := .equality) (fun _ h => h) (fun _ h => h) h
  | equality => exact readable_tier .equality (r := .comparison) (fun _ h => h) (fun _ h => h) h
  | comparison => exact readable_tier .comparison (r := .term) (fun _ h => h) (fun _ h => h) h
  | term => exact readable_tier .term (r := .factor) (fun _ h => h) (fun _ h => h) h
  | factor => exact readable_tier .factor (r := .unary) (fun _ h => h) (by decide) h
  | unary => exact readable_unary h
  | call => exact readable_call h
  | arguments =>
    exact readable_commaSeparated (a := .rule .assignment) (fun _ h => h)
      (fun _ _ h => .oneArgument h)
      (fun _ _ _ _ _ _ hx hcomma hs => .moreArguments hx hcomma hs) h
  | primary => exact readable_primary h

end Nonterminal

/-- A derived token list stands for a list of declarations. -/
theorem Derives.reads {ts : List Token} (h : Derives (.rule .program) ts) :
    ∃ ss, Reads (.decls ss) ts :=
  h.lang Nonterminal.readable

/-! ### The accepted token lists -/

/-- **Exactly the grammar is accepted.** Nothing is reported about a token list if and only if the
    grammar derives the tokens in front of its end token, with at most `Rule.maxArity` entries in
    each list of parameters and of arguments. -/
theorem Program.report_eq_iff_derives (tokens : List Token) (nextNode : NodeId)
    (report : Report) :
    (parse tokens nextNode report).report = report ↔
      Derives (.rule .program) (tokens.takeWhile (!·.isEof)) := by
  constructor
  · intro h
    exact .rule (reads_parse h).derivable
  · intro h
    obtain ⟨ss, hss⟩ := h.reads
    exact (parse_of_reads nextNode report hss).1

end Scriptlet
