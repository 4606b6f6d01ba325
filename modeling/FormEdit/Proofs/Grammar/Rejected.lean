import FormEdit.Proofs.Grammar.Accepted

/-!
# What a rejection says of the tokens to come

The reader rejects tokens either for want of more of them or for a token that nothing behind it can
make good (`read_rejected`). In the first case it is inside of forms that can all be closed: an atom
and one parenthesis for each open list do (`read_completion`). In the second case it rejects all
longer texts for the same cause at the same token.
-/

namespace FormEdit.Reader

variable {pending inner : List Pending} {token : Token Mark}
  {ts us rest : List (Token Mark)} {f : Form}
  {last : Nat} {r : Rejection}

/-! ## One token more -/

theorem endsHere_append (some : ts ≠ []) : endsHere (ts ++ us) = endsHere ts := by
  cases ts with
  | nil => exact absurd rfl some
  | cons token ts => rfl

/-- Tokens further on make no difference to what one token does. -/
theorem take_append (near : token.kind = .quote → rest ≠ []) :
    take pending token (rest ++ us) = take pending token rest := by
  cases kind : token.kind with
  | quote => simp only [take, kind, endsHere_append (near kind)]
  | closing =>
    cases pending with
    | nil => simp only [take, kind]
    | cons top outer => cases top <;> simp only [take, kind]
  | _ => simp only [take, kind]

/-- The reader can go on inside of the forms: if the innermost one is a quote, a form comes next. -/
def Fed : List Pending → List (Token Mark) → Prop
  | [], _ => False
  | .list _ _ :: _, _ => True
  | .quote _ :: _, ts => endsHere ts = false

theorem fed_of_deliver (delivered : deliver f pending = .ok (.inside inner)) : Fed inner ts := by
  induction pending generalizing f with
  | nil => cases delivered
  | cons top outer ih =>
    cases top with
    | list start children =>
      cases delivered
      trivial
    | quote start =>
      obtain ⟨span, -, delivered⟩ := bind_eq_ok.mp delivered
      exact ih delivered

/-- Forms that are left pending were so before. -/
theorem starts_of_deliver (delivered : deliver f pending = .ok (.inside inner)) :
    ∀ p ∈ inner, ∃ q ∈ pending, q.start = p.start := by
  induction pending generalizing f with
  | nil => cases delivered
  | cons top outer ih =>
    cases top with
    | list start children =>
      cases delivered
      intro p mem
      rcases List.mem_cons.mp mem with rfl | mem
      · exact ⟨.list start children, List.mem_cons_self, rfl⟩
      · exact ⟨p, List.mem_cons_of_mem _ mem, rfl⟩
    | quote start =>
      obtain ⟨span, -, delivered⟩ := bind_eq_ok.mp delivered
      intro p mem
      obtain ⟨q, mem_q, same⟩ := ih delivered p mem
      exact ⟨q, List.mem_cons_of_mem _ mem_q, same⟩

/-- Where forms are pending behind a token, it has delivered one to those that were, or entered
one. -/
theorem take_inside (taken : take pending token rest = .ok (.inside inner)) :
    (∃ f outer, deliver f outer = .ok (.inside inner) ∧ ∀ p ∈ outer, p ∈ pending) ∨
    (inner = .list token.span.start [] :: pending) ∨
    inner = .quote token.span.start :: pending ∧ endsHere rest = false := by
  cases taking_of_take taken with
  | atom kind delivered => exact .inl ⟨_, pending, delivered, fun p mem => mem⟩
  | quote kind more entered =>
    cases entered
    exact .inr (.inr ⟨rfl, more⟩)
  | opening kind entered =>
    cases entered
    exact .inr (.inl rfl)
  | closing kind top stop delivered =>
    subst top
    exact .inl ⟨_, _, delivered, fun p mem => List.mem_cons_of_mem _ mem⟩

theorem fed_of_take (taken : take pending token rest = .ok (.inside inner)) : Fed inner rest := by
  rcases take_inside taken with ⟨f, outer, delivered, -⟩ | rfl | ⟨rfl, more⟩
  · exact fed_of_deliver delivered
  · trivial
  · exact more

theorem starts_of_take (taken : take pending token rest = .ok (.inside inner)) :
    ∀ p ∈ inner, p.start = token.span.start ∨ ∃ q ∈ pending, q.start = p.start := by
  intro p mem
  have entered (q : Pending) (start : q.start = token.span.start) (mem : p ∈ q :: pending) :
      p.start = token.span.start ∨ ∃ q ∈ pending, q.start = p.start := by
    rcases List.mem_cons.mp mem with rfl | mem
    · exact .inl start
    · exact .inr ⟨p, mem, rfl⟩
  rcases take_inside taken with ⟨f, outer, delivered, sub⟩ | rfl | ⟨rfl, -⟩
  · obtain ⟨q, mem_q, same⟩ := starts_of_deliver delivered p mem
    exact .inr ⟨q, sub q mem_q, same⟩
  · exact entered _ rfl mem
  · exact entered _ rfl mem

/-- One token is rejected for being a quote without a form, or a parenthesis that closes nothing. -/
theorem take_rejected (rejected : take pending token rest = .error (.rejected r)) :
    (token.kind = .quote ∧ endsHere rest = true ∧ r = ⟨.bareQuote, token.span⟩) ∨
    (token.kind = .closing ∧ ¬Fed pending (token :: rest) ∧ r = ⟨.unmatched ')', token.span⟩) := by
  have no_fault {α : Type} {x : Checked α} : x.mapError Failure.fault ≠ .error (.rejected r) := by
    cases x with
    | error fault => simp
    | ok a => simp
  cases kind : token.kind with
  | atom =>
    simp only [take, kind] at rejected
    exact absurd rejected no_fault
  | quote =>
    simp only [take, kind] at rejected
    split at rejected
    next ends =>
      cases rejected
      exact .inl ⟨rfl, ends, rfl⟩
    next => cases rejected
  | opening =>
    simp only [take, kind] at rejected
    cases rejected
  | closing =>
    cases pending with
    | nil =>
      simp only [take, kind] at rejected
      cases rejected
      exact .inr ⟨rfl, id, rfl⟩
    | cons top outer =>
      cases top with
      | quote start =>
        simp only [take, kind] at rejected
        cases rejected
        exact .inr ⟨rfl, by simp [Fed, endsHere, kind], rfl⟩
      | list start children =>
        simp only [take, kind] at rejected
        cases made : Span.make start token.span.stop with
        | error fault => simp [made] at rejected
        | ok span =>
          simp only [made, mapError_ok, ok_bind] at rejected
          exact absurd rejected no_fault

/-! ## Many tokens -/

/-- Inside of a form no parenthesis is unmatched. -/
theorem read_matched (fed : Fed pending ts)
    (rejected : read last pending ts = .error (.rejected r)) :
    ∀ delimiter, r.cause ≠ .unmatched delimiter := by
  induction ts generalizing pending with
  | nil =>
    cases rejected
    exact nofun
  | cons token ts ih =>
    rw [read_cons] at rejected
    cases taken : take pending token ts with
    | error failure =>
      rw [taken, error_bind, Except.error.injEq] at rejected
      subst rejected
      rcases take_rejected taken with ⟨-, -, rfl⟩ | ⟨-, unfed, -⟩
      · exact nofun
      · exact absurd fed unfed
    | ok progress =>
      rw [taken, ok_bind] at rejected
      cases progress with
      | done form => cases rejected
      | inside inner => exact ih (fed_of_take taken) rejected

/-- The tokens are rejected at their end, and the reader is inside of the forms `inner` there. With
more tokens it goes on from these, unless they begin with a parenthesis that closes a list. -/
structure Open (pending : List Pending) (ts : List (Token Mark)) (r : Rejection)
    (inner : List Pending) :
    Prop where
  at_end : (∃ expected, r.cause = .cutShort expected) ∨
    r.cause = .bareQuote ∧ ∃ quote, ts.getLast? = some quote ∧ r.span = quote.span
  goes_on : ∀ last us, endsHere us = false → read last pending (ts ++ us) = read last inner us
  starts : ∀ p ∈ inner, (∃ q ∈ pending, q.start = p.start) ∨ ∃ t ∈ ts, t.span.start = p.start

/-- The tokens are rejected ahead of their end, whatever follows. -/
structure Decided (pending : List Pending) (ts : List (Token Mark)) (r : Rejection) : Prop where
  not_short : ∀ expected, r.cause ≠ .cutShort expected
  quote_followed : r.cause = .bareQuote → ∃ quote ∈ ts.dropLast, r.span = quote.span
  stays : ∀ last us, read last pending (ts ++ us) = .error (.rejected r)

theorem not_quote_of_take {progress : Progress} (taken : take pending token [] = .ok progress) :
    token.kind ≠ .quote := by
  intro kind
  simp only [take, kind] at taken
  cases taken

theorem Open.cons {inmost : List Pending} (taken : take pending token ts = .ok (.inside inner))
    (further : Open inner ts r inmost) : Open pending (token :: ts) r inmost where
  at_end := by
    refine further.at_end.imp id fun ⟨cause, quote, final, span⟩ => ⟨cause, quote, ?_, span⟩
    rw [List.getLast?_cons, final]
    rfl
  goes_on := by
    intro last us more
    rw [List.cons_append, read_cons, take_append, taken, ok_bind]
    · exact further.goes_on last us more
    · rintro kind rfl
      exact not_quote_of_take taken kind
  starts := by
    intro p mem
    rcases further.starts p mem with ⟨q, mem_q, same⟩ | ⟨t, mem_t, same⟩
    · rcases starts_of_take taken q mem_q with start | ⟨outer, mem_outer, start⟩
      · exact .inr ⟨token, List.mem_cons_self, start.symm.trans same⟩
      · exact .inl ⟨outer, mem_outer, start.trans same⟩
    · exact .inr ⟨t, List.mem_cons_of_mem _ mem_t, same⟩

theorem Decided.cons (taken : take pending token ts = .ok (.inside inner))
    (further : Decided inner ts r) :
    Decided pending (token :: ts) r where
  not_short := further.not_short
  quote_followed := by
    intro cause
    obtain ⟨quote, mem, span⟩ := further.quote_followed cause
    have some : ts ≠ [] := by
      rintro rfl
      cases mem
    refine ⟨quote, ?_, span⟩
    rw [List.dropLast_cons_of_ne_nil some]
    exact List.mem_cons_of_mem _ mem
  stays := by
    intro last us
    rw [List.cons_append, read_cons, take_append, taken, ok_bind]
    · exact further.stays last us
    · rintro kind rfl
      exact not_quote_of_take taken kind

theorem read_rejected (rejected : read last pending ts = .error (.rejected r)) :
    (∃ inner, Open pending ts r inner) ∨ Decided pending ts r := by
  induction ts generalizing pending with
  | nil =>
    cases rejected
    exact .inl ⟨pending, .inl ⟨_, rfl⟩, fun last us more => rfl, fun p mem => .inl ⟨p, mem, rfl⟩⟩
  | cons token ts ih =>
    rw [read_cons] at rejected
    cases taken : take pending token ts with
    | ok progress =>
      rw [taken, ok_bind] at rejected
      cases progress with
      | done form => cases rejected
      | inside inner =>
        rcases ih rejected with ⟨inmost, further⟩ | further
        · exact .inl ⟨inmost, further.cons taken⟩
        · exact .inr (further.cons taken)
    | error failure =>
      rw [taken, error_bind, Except.error.injEq] at rejected
      subst rejected
      have stays (near : token.kind = .quote → ts ≠ []) (last : Nat) (us : List (Token Mark)) :
          read last pending (token :: ts ++ us) = .error (.rejected r) := by
        rw [List.cons_append, read_cons, take_append near, taken, error_bind]
      rcases take_rejected taken with ⟨kind, ends, rfl⟩ | ⟨kind, -, rfl⟩
      · by_cases none : ts = []
        · -- A quote at the end waits for its form.
          subst none
          refine .inl ⟨.quote token.span.start :: pending, .inr ⟨rfl, token, rfl, rfl⟩, ?_, ?_⟩
          · intro last us more
            simp only [List.singleton_append, read_cons, take, kind, more, Bool.false_eq_true,
              if_false, ok_bind, follow]
          · intro p mem
            rcases List.mem_cons.mp mem with rfl | mem
            · exact .inr ⟨token, List.mem_cons_self, rfl⟩
            · exact .inl ⟨p, mem, rfl⟩
        · refine .inr ⟨?_, fun _ => ⟨token, ?_, rfl⟩, stays fun _ => none⟩
          · intro expected short
            cases short
          · rw [List.dropLast_cons_of_ne_nil none]
            exact List.mem_cons_self
      · refine .inr ⟨?_, ?_, stays fun quote => ?_⟩
        · intro expected short
          cases short
        · intro bare
          cases bare
        · rw [kind] at quote
          cases quote

/-! ## Tokens that close what is open -/

/-- A parenthesis for each list. Quotes are complete with the form that they wait for. -/
def closers (span : Span) : List Pending → List (Token Mark)
  | [] => []
  | .list _ _ :: outer => ⟨.closing, ")", span⟩ :: closers span outer
  | .quote _ :: outer => closers span outer

variable {span : Span}

/-- A form, and what closes the forms that are open around it. -/
def completion (span : Span) (pending : List Pending) : List (Token Mark) :=
  ⟨.atom, "a", span⟩ :: closers span pending

theorem span_of_completion : ∀ u ∈ completion span pending, u.span = span := by
  have closing : ∀ u ∈ closers span pending, u.span = span := by
    induction pending with
    | nil => exact nofun
    | cons top outer ih =>
      cases top with
      | quote start => exact ih
      | list start children =>
        intro u mem
        rcases List.mem_cons.mp mem with rfl | mem
        · rfl
        · exact ih u mem
  intro u mem
  rcases List.mem_cons.mp mem with rfl | mem
  · rfl
  · exact closing u mem

theorem deliver_closers (before : ∀ p ∈ pending, p.start ≤ span.stop)
    (stop : f.span.stop = span.stop) :
    ∃ result, resume last (deliver f pending) (closers span pending) = .ok result := by
  induction pending generalizing f with
  | nil => exact ⟨_, rfl⟩
  | cons top outer ih =>
    have before_outer : ∀ p ∈ outer, p.start ≤ span.stop :=
      fun p mem => before p (List.mem_cons_of_mem _ mem)
    have order := before top List.mem_cons_self
    cases top with
    | list start children =>
      have order : start ≤ span.stop := order
      have closed : resume last (deliver f (.list start children :: outer))
          (closers span (.list start children :: outer)) = resume last
            (deliver (.node ⟨.list, ⟨start, span.stop, order⟩⟩ (f :: children).reverse) outer)
            (closers span outer) := by
        simp only [resume, deliver, mapError_ok, ok_bind, follow, closers, read_cons, take,
          Span.make_ok order]
      rw [closed]
      exact ih before_outer rfl
    | quote start =>
      have order : start ≤ f.span.stop := by
        rw [stop]
        exact order
      have complete : deliver f (.quote start :: outer) =
          deliver (.node ⟨.quote, ⟨start, f.span.stop, order⟩⟩ [f]) outer := by
        rw [deliver, Span.make_ok order, ok_bind]
      rw [complete, closers]
      exact ih before_outer stop

/-- From inside of any forms the reader comes to the end of the outermost one. -/
theorem read_completion (before : ∀ p ∈ pending, p.start ≤ span.stop) :
    ∃ result, read last pending (completion span pending) = .ok result := by
  rw [completion, read_cons]
  exact deliver_closers (f := .leaf ⟨.atom "a", span⟩) before rfl

/-! ## What more tokens can do -/

/-- Where the last of the tokens stands. -/
def lastSpan (ts : List (Token Mark)) : Span :=
  match ts.getLast? with
  | some token => token.span
  | none => Span.empty 0

theorem stop_lastSpan (ts : List (Token Mark)) : (lastSpan ts).stop = lastStop ts := by
  unfold lastSpan lastStop
  cases ts.getLast? <;> rfl

theorem InOrder.le_last (ordered : InOrder ts) : ∀ t ∈ ts,
    t.span.start ≤ (lastSpan ts).start ∧ t.span.stop ≤ (lastSpan ts).stop := by
  intro t mem
  rcases List.eq_nil_or_concat ts with rfl | ⟨front, final, rfl⟩
  · cases mem
  · rw [List.concat_eq_append] at ordered mem ⊢
    have last : lastSpan (front ++ [final]) = final.span := by
      rw [lastSpan, List.getLast?_concat]
    rw [last]
    rcases List.mem_append.mp mem with mem | mem
    · have start := (List.pairwise_append.mp ordered.starts).2.2 t mem final List.mem_cons_self
      have stop := (List.pairwise_append.mp ordered.stops).2.2 t mem final List.mem_cons_self
      exact ⟨start, stop⟩
    · rw [List.mem_singleton.mp mem]
      exact ⟨Nat.le_refl _, Nat.le_refl _⟩

/-- Tokens can be added where the last one stands. -/
theorem InOrder.extend (ordered : InOrder ts) (there : ∀ u ∈ us, u.span = lastSpan ts) :
    InOrder (ts ++ us) := by
  have alike (place : Token Mark → Nat) (same : ∀ u v : Token Mark, u.span = v.span →
    place u = place v) :
      us.Pairwise fun a b => place a ≤ place b := by
    apply List.pairwise_of_forall_mem_list
    intro a mem_a b mem_b
    exact Nat.le_of_eq (same a b ((there a mem_a).trans (there b mem_b).symm))
  constructor
  · refine List.pairwise_append.mpr ⟨ordered.starts, alike _ fun u v same => by rw [same], ?_⟩
    intro t mem_t u mem_u
    rw [there u mem_u]
    exact (ordered.le_last t mem_t).1
  · refine List.pairwise_append.mpr ⟨ordered.stops, alike _ fun u v same => by rw [same], ?_⟩
    intro t mem_t u mem_u
    rw [there u mem_u]
    exact (ordered.le_last t mem_t).2

/-- Tokens that are rejected at their end are read with a form behind them, and with what closes the
forms around it. -/
theorem Open.exists_more (opened : Open [] ts r inner) (ordered : InOrder ts) :
    ∃ us, InOrder (ts ++ us) ∧ (∃ result, readForm (ts ++ us) = .ok result) ∧
      ∀ u ∈ us, u.span.stop = lastStop ts := by
  have before : ∀ p ∈ inner, p.start ≤ (lastSpan ts).stop := by
    intro p mem
    rcases opened.starts p mem with ⟨q, mem_q, -⟩ | ⟨t, mem_t, same⟩
    · cases mem_q
    · rw [← same]
      exact Nat.le_trans t.span.start_le_stop (ordered.le_last t mem_t).2
  refine ⟨completion (lastSpan ts) inner, ordered.extend span_of_completion, ?_, ?_⟩
  · rw [readForm, opened.goes_on _ _ rfl]
    exact read_completion before
  · intro u mem
    rw [span_of_completion u mem, stop_lastSpan]

/-- A token that is rejected ahead of the end is not the last one. -/
theorem Decided.not_at_end (decided : Decided pending ts r)
    (distinct : ts.Pairwise fun a b => a.span ≠ b.span) :
    ¬((∃ expected, r.cause = .cutShort expected) ∨
      r.cause = .bareQuote ∧ ∃ quote, ts.getLast? = some quote ∧ r.span = quote.span) := by
  rintro (⟨expected, cause⟩ | ⟨cause, quote, final, span⟩)
  · exact decided.not_short expected cause
  · obtain ⟨quote', mem, span'⟩ := decided.quote_followed cause
    obtain ⟨front, rfl⟩ := List.getLast?_eq_some_iff.mp final
    rw [List.dropLast_concat] at mem
    have apart := (List.pairwise_append.mp distinct).2.2 quote' mem quote List.mem_cons_self
    exact apart (span'.symm.trans span)

theorem unmatched_iff (rejected : readForm ts = .error (.rejected r)) :
    (∃ delimiter, r.cause = .unmatched delimiter) ↔
      ∃ closing, ts.head? = some closing ∧ closing.kind = .closing := by
  cases ts with
  | nil =>
    cases rejected
    simp
  | cons token ts =>
    rw [readForm, read_cons] at rejected
    cases taken : take [] token ts with
    | error failure =>
      rw [taken, error_bind, Except.error.injEq] at rejected
      subst rejected
      rcases take_rejected taken with ⟨kind, -, rfl⟩ | ⟨kind, -, rfl⟩
      · simp [kind]
      · simp [kind]
    | ok progress =>
      have other : token.kind ≠ .closing := by
        intro kind
        simp only [take, kind] at taken
        cases taken
      rw [taken, ok_bind] at rejected
      cases progress with
      | done form => cases rejected
      | inside inner =>
        have matched := read_matched (fed_of_take taken) rejected
        simp [matched, other]

/-- What a rejection says of tokens to come. Let tokens stand in order, no two of them at the same
span, and let the reader find no form at their front: they are rejected, and no fault is met. There
are tokens that can be added in order so that a form is read just if the tokens were cut short or
end with a quote that waits for its form; tokens that reach no further than the last one will then
do. A delimiter is unmatched just if it is the first token. -/
theorem rejection_tells_if_more_helps (ordered : InOrder ts)
    (distinct : ts.Pairwise fun a b => a.span ≠ b.span)
    (failed : ∀ result, readForm ts ≠ .ok result) :
    ∃ r, readForm ts = .error (.rejected r) ∧
      ((∃ us, InOrder (ts ++ us) ∧ ∃ result, readForm (ts ++ us) = .ok result) ↔
        (∃ expected, r.cause = .cutShort expected) ∨
          r.cause = .bareQuote ∧ ∃ quote, ts.getLast? = some quote ∧ r.span = quote.span) ∧
      ((∃ us, InOrder (ts ++ us) ∧ ∃ result, readForm (ts ++ us) = .ok result) →
        ∃ us, InOrder (ts ++ us) ∧ (∃ result, readForm (ts ++ us) = .ok result) ∧
          ∀ u ∈ us, u.span.stop = lastStop ts) ∧
      ((∃ delimiter, r.cause = .unmatched delimiter) ↔
        ∃ closing, ts.head? = some closing ∧ closing.kind = .closing) := by
  obtain ⟨r, rejected⟩ : ∃ r, readForm ts = .error (.rejected r) := by
    rcases readForm_settles ordered with ⟨result, read⟩ | rejected
    · exact absurd read (failed result)
    · exact rejected
  refine ⟨r, rejected, ?_, ?_, unmatched_iff rejected⟩
  · rcases read_rejected rejected with ⟨inner, opened⟩ | decided
    · obtain ⟨us, in_order, read, -⟩ := opened.exists_more ordered
      exact iff_of_true ⟨us, in_order, read⟩ opened.at_end
    · refine iff_of_false ?_ (decided.not_at_end distinct)
      rintro ⟨us, -, result, read⟩
      rw [readForm, decided.stays] at read
      cases read
  · rintro ⟨us, -, result, read⟩
    rcases read_rejected rejected with ⟨inner, opened⟩ | decided
    · exact opened.exists_more ordered
    · rw [readForm, decided.stays] at read
      cases read

/-- The tokens of `('`, and behind them a parenthesis. -/
theorem danglingQuote_waits_for_a_form :
    InOrder (quotedPair.take 2) ∧ (quotedPair.take 2).Pairwise (fun a b => a.span ≠ b.span) ∧
    readForm (quotedPair.take 2) = .error (.rejected ⟨.bareQuote, ⟨1, 2, by decide⟩⟩) ∧
    (∃ us, InOrder (quotedPair.take 2 ++ us) ∧ ∃ result,
      readForm (quotedPair.take 2 ++ us) = .ok result) ∧
    readForm (quotedPair.take 2 ++ [stray]) = .error (.rejected ⟨.bareQuote, ⟨1, 2, by decide⟩⟩) ∧
    ¬∃ us, InOrder (quotedPair.take 2 ++ [stray] ++ us) ∧
      ∃ result, readForm (quotedPair.take 2 ++ [stray] ++ us) = .ok result := by
  have ordered : InOrder (quotedPair.take 2) := ⟨by decide, by decide⟩
  have ordered' : InOrder (quotedPair.take 2 ++ [stray]) := ⟨by decide, by decide⟩
  have distinct : (quotedPair.take 2).Pairwise fun a b => a.span ≠ b.span := by decide
  have distinct' : (quotedPair.take 2 ++ [stray]).Pairwise fun a b => a.span ≠ b.span := by decide
  have rejected : readForm (quotedPair.take 2) =
      .error (.rejected ⟨.bareQuote, ⟨1, 2, by decide⟩⟩) := rfl
  have rejected' : readForm (quotedPair.take 2 ++ [stray]) =
      .error (.rejected ⟨.bareQuote, ⟨1, 2, by decide⟩⟩) := rfl
  obtain ⟨r, found, more, -⟩ := rejection_tells_if_more_helps ordered distinct (by simp [rejected])
  obtain ⟨r', found', more', -⟩ :=
    rejection_tells_if_more_helps ordered' distinct' (by simp [rejected'])
  rw [rejected] at found
  cases found
  rw [rejected'] at found'
  cases found'
  refine ⟨ordered, distinct, rejected, more.mpr (.inr ⟨rfl, _, rfl, rfl⟩), rejected',
    more'.not.mpr ?_⟩
  rintro (⟨expected, short⟩ | ⟨-, quote, final, span⟩)
  · cases short
  · cases final
    exact absurd span (by decide)

end FormEdit.Reader
