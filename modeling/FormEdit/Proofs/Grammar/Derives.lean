import FormEdit.Language
import FormEdit.Proofs.Grammar.Lexes

/-!
# The forms of a sequence of tokens

`Derives ts fs rest` says that the tokens `ts` are those of the forms `fs` followed by `rest`. The
reader, which keeps a stack of incomplete forms, finds exactly the one form that the grammar
derives: `readWhole_eq_ok` puts this together with the scanner. Where there are no comments the
tokens are those of `Lexes` (`parses_iff_reads`).
-/

namespace FormEdit

namespace Reader

/-- Forms one after the other, read from the front of a sequence of tokens. -/
inductive Derives : List (Token Mark) → List Form → List (Token Mark) → Prop
  | nil {ts : List (Token Mark)} : Derives ts [] ts
  | atom {token : Token Mark} {ts rest : List (Token Mark)} {fs : List Form}
      (is_atom : token.kind = .atom) (more : Derives ts fs rest) :
      Derives (token :: ts) (.leaf ⟨.atom token.content, token.span⟩ :: fs) rest
  | quote {token : Token Mark} {ts mid rest : List (Token Mark)} {f : Form} {fs : List Form}
      {span : Span} (is_quote : token.kind = .quote) (quoted : Derives ts [f] mid)
      (start : span.start = token.span.start) (stop : span.stop = f.span.stop)
      (more : Derives mid fs rest) :
      Derives (token :: ts) (.node ⟨.quote, span⟩ [f] :: fs) rest
  | list {opening closing : Token Mark} {ts mid rest : List (Token Mark)} {gs fs : List Form}
      {span : Span} (opens : opening.kind = .opening) (items : Derives ts gs (closing :: mid))
      (closes : closing.kind = .closing) (start : span.start = opening.span.start)
      (stop : span.stop = closing.span.stop) (more : Derives mid fs rest) :
      Derives (opening :: ts) (.node ⟨.list, span⟩ gs :: fs) rest

theorem Derives.eq_of_nil {ts rest : List (Token Mark)} (derives : Derives ts [] rest) :
    ts = rest := by
  cases derives
  rfl

theorem Derives.append {ts mid rest : List (Token Mark)} {fs gs : List Form}
    (first : Derives ts fs mid) (second : Derives mid gs rest) : Derives ts (fs ++ gs) rest := by
  induction first with
  | nil => exact second
  | atom is_atom more ih => exact .atom is_atom (ih second)
  | quote is_quote quoted start stop more _ ih =>
    exact .quote is_quote quoted start stop (ih second)
  | list opens items closes start stop more _ ih =>
    exact .list opens items closes start stop (ih second)

/-- What stands before a form stays when the tokens go on behind it. -/
theorem Derives.extend {ts rest : List (Token Mark)} {fs : List Form}
    (derives : Derives ts fs rest) (later : List (Token Mark)) :
    Derives (ts ++ later) fs (rest ++ later) := by
  induction derives with
  | nil => exact .nil
  | atom is_atom more ih => exact .atom is_atom ih
  | quote is_quote quoted start stop more ih ih' => exact .quote is_quote ih start stop ih'
  | list opens items closes start stop more ih ih' => exact .list opens ih closes start stop ih'

/-- The end of tokens that go on after those of the first form. -/
theorem last_append {front own : List (Token Mark)} {token : Token Mark} {f : Form}
    {fs : List Form} (front_last : front.getLast? = some token)
    (stop : token.span.stop = f.span.stop) (none : fs = [] → own = [])
    (later : ∀ g, fs.getLast? = some g → ∃ t, own.getLast? = some t ∧ t.span.stop = g.span.stop) :
    ∀ g, (f :: fs).getLast? = some g →
      ∃ t, (front ++ own).getLast? = some t ∧ t.span.stop = g.span.stop := by
  intro g final
  cases fs with
  | nil =>
    cases final
    rw [none rfl, List.append_nil]
    exact ⟨token, front_last, stop⟩
  | cons f' fs =>
    rw [List.getLast?_cons_cons] at final
    obtain ⟨t, found, stop_t⟩ := later g final
    refine ⟨t, ?_, stop_t⟩
    rw [List.getLast?_append, found]
    rfl

/-- The tokens of forms begin where the first form does and end where the last one does. -/
theorem Derives.ends {ts rest : List (Token Mark)} {fs : List Form} (derives : Derives ts fs rest) :
    ∃ own, ts = own ++ rest ∧
      (∀ f, fs.head? = some f → ∃ t, own.head? = some t ∧ t.span.start = f.span.start) ∧
      ∀ f, fs.getLast? = some f → ∃ t, own.getLast? = some t ∧ t.span.stop = f.span.stop := by
  have own_nil {own rest : List (Token Mark)} {fs : List Form}
    (more : Derives (own ++ rest) fs rest) (none : fs = []) : own = [] := by
    subst none
    simpa using more.eq_of_nil
  induction derives with
  | nil => exact ⟨[], rfl, by simp, by simp⟩
  | @atom token ts rest fs is_atom more ih =>
    obtain ⟨own, rfl, -, last⟩ := ih
    refine ⟨[token] ++ own, rfl, ?_, last_append rfl rfl (own_nil more) last⟩
    rintro f ⟨⟩
    exact ⟨token, rfl, rfl⟩
  | @quote token ts mid rest f fs span is_quote quoted start stop more ih_quoted ih =>
    obtain ⟨own, rfl, -, last_quoted⟩ := ih_quoted
    obtain ⟨own', rfl, -, last⟩ := ih
    obtain ⟨t, final, stop_t⟩ := last_quoted f rfl
    refine ⟨(token :: own) ++ own', by simp, ?_,
      last_append (by rw [List.getLast?_cons, final]; rfl) (stop_t.trans stop.symm)
        (own_nil more) last⟩
    rintro g ⟨⟩
    exact ⟨token, rfl, start.symm⟩
  | @list opening closing ts mid rest gs fs span opens items closes start stop more ih_items ih =>
    obtain ⟨own, rfl, -, -⟩ := ih_items
    obtain ⟨own', rfl, -, last⟩ := ih
    refine ⟨(opening :: own ++ [closing]) ++ own', by simp, ?_,
      last_append (by rw [List.getLast?_append]; rfl) stop.symm (own_nil more) last⟩
    rintro g ⟨⟩
    exact ⟨opening, rfl, start.symm⟩

/-! ## The reader finds what is derived -/

/-- The reader goes on from where a token has brought it. -/
def follow (last : Nat) (rest : List (Token Mark)) :
    Progress → Except Failure (Form × List (Token Mark))
  | .done form => .ok (form, rest)
  | .inside pending => read last pending rest

theorem read_cons (last : Nat) (pending : List Pending) (token : Token Mark)
    (rest : List (Token Mark)) :
    read last pending (token :: rest) = take pending token rest >>= follow last rest := by
  rw [read]
  refine congrArg _ (funext fun progress => ?_)
  cases progress <;> rfl

/-- The reader goes on after a complete form. -/
def resume (last : Nat) (progress : Checked Progress) (rest : List (Token Mark)) :
    Except Failure (Form × List (Token Mark)) :=
  progress.mapError .fault >>= follow last rest

theorem Derives.endsHere_false {ts rest : List (Token Mark)} {f : Form} {fs : List Form}
    (derives : Derives ts (f :: fs) rest) : endsHere ts = false := by
  cases derives with
  | atom is_atom more => simp [endsHere, is_atom]
  | quote is_quote quoted start stop more => simp [endsHere, is_quote]
  | list opens items closes start stop more => simp [endsHere, opens]

theorem make_eq {start stop : Nat} {span : Span} (hstart : span.start = start)
    (hstop : span.stop = stop) : Span.make start stop = .ok span := by
  subst hstart hstop
  exact Span.make_ok span.start_le_stop

theorem read_of_derives {ts rest : List (Token Mark)} {fs : List Form}
    (derives : Derives ts fs rest) (last : Nat) :
    (∀ start children outer, read last (.list start children :: outer) ts =
      read last (.list start (fs.reverse ++ children) :: outer) rest) ∧
    ∀ f, fs = [f] → ∀ pending, read last pending ts = resume last (deliver f pending) rest := by
  induction derives with
  | nil => exact ⟨fun _ _ _ => rfl, by simp⟩
  | @atom token ts rest fs is_atom more ih =>
    refine ⟨?_, ?_⟩
    · intro start children outer
      simp only [read_cons, take, is_atom, deliver, mapError_ok, ok_bind, follow, ih.1,
        List.reverse_cons, List.append_assoc, List.cons_append, List.nil_append]
    · rintro f single pending
      obtain ⟨rfl, rfl⟩ := List.cons.inj single
      cases more
      simp only [read_cons, take, is_atom, resume]
  | @quote token ts mid rest f fs span is_quote quoted start stop more ih ih' =>
    have inner (pending : List Pending) : read last pending (token :: ts) =
        resume last (deliver (.node ⟨.quote, span⟩ [f]) pending) mid := by
      have next := ih.2 f rfl (.quote token.span.start :: pending)
      simp only [deliver, make_eq start stop, ok_bind] at next
      simp [read_cons, take, is_quote, quoted.endsHere_false, follow, next]
    refine ⟨?_, ?_⟩
    · intro from_ children outer
      rw [inner]
      simp only [resume, deliver, mapError_ok, ok_bind, follow, ih'.1, List.reverse_cons,
        List.append_assoc, List.cons_append, List.nil_append]
    · rintro g single pending
      obtain ⟨rfl, rfl⟩ := List.cons.inj single
      cases more
      exact inner pending
  | @list opening closing ts mid rest gs fs span opens items closes start stop more ih ih' =>
    have inner (pending : List Pending) : read last pending (opening :: ts) =
        resume last (deliver (.node ⟨.list, span⟩ gs) pending) mid := by
      have next := ih.1 opening.span.start [] pending
      simp only [List.append_nil] at next
      simp only [read_cons, take, opens, ok_bind, follow, next, closes, make_eq start stop,
        mapError_ok, List.reverse_reverse, resume]
    refine ⟨?_, ?_⟩
    · intro from_ children outer
      rw [inner]
      simp only [resume, deliver, mapError_ok, ok_bind, follow, ih'.1, List.reverse_cons,
        List.append_assoc, List.cons_append, List.nil_append]
    · rintro g single pending
      obtain ⟨rfl, rfl⟩ := List.cons.inj single
      cases more
      exact inner pending

theorem readForm_of_derives {ts rest : List (Token Mark)} {f : Form}
    (derives : Derives ts [f] rest) : readForm ts = .ok (f, rest) := by
  rw [readForm, (read_of_derives derives _).2 f rfl]
  rfl

/-! ## Nothing else is found -/

/-- Handing a form to the pending ones and reading on gives `f`. -/
def Delivers : List Pending → Form → List (Token Mark) → Form → List (Token Mark) → Prop
  | [], g, mid, f, rest => f = g ∧ rest = mid
  | .quote start :: outer, g, mid, f, rest => ∃ span : Span, span.start = start ∧
      span.stop = g.span.stop ∧ Delivers outer (.node ⟨.quote, span⟩ [g]) mid f rest
  | .list start children :: outer, g, mid, f, rest => ∃ gs closing later, ∃ span : Span,
      Derives mid gs (closing :: later) ∧ closing.kind = .closing ∧ span.start = start ∧
      span.stop = closing.span.stop ∧
      Delivers outer (.node ⟨.list, span⟩ ((g :: children).reverse ++ gs)) later f rest

/-- Reading on inside of the pending forms gives `f`. -/
def Completes : List Pending → List (Token Mark) → Form → List (Token Mark) → Prop
  | [], ts, f, rest => Derives ts [f] rest
  | .quote start :: outer, ts, f, rest => ∃ g mid, ∃ span : Span, Derives ts [g] mid ∧
      span.start = start ∧ span.stop = g.span.stop ∧
      Delivers outer (.node ⟨.quote, span⟩ [g]) mid f rest
  | .list start children :: outer, ts, f, rest => ∃ gs closing mid, ∃ span : Span,
      Derives ts gs (closing :: mid) ∧ closing.kind = .closing ∧ span.start = start ∧
      span.stop = closing.span.stop ∧
      Delivers outer (.node ⟨.list, span⟩ (children.reverse ++ gs)) mid f rest

theorem completes_of_delivers {pending : List Pending} {ts mid rest : List (Token Mark)}
    {f g : Form} (derives : Derives ts [g] mid) (delivers : Delivers pending g mid f rest) :
    Completes pending ts f rest := by
  cases pending with
  | nil =>
    obtain ⟨rfl, rfl⟩ := delivers
    exact derives
  | cons top outer =>
    cases top with
    | quote start =>
      obtain ⟨span, hstart, hstop, delivers⟩ := delivers
      exact ⟨g, mid, span, derives, hstart, hstop, delivers⟩
    | list start children =>
      obtain ⟨gs, closing, later, span, items, closes, hstart, hstop, delivers⟩ := delivers
      refine ⟨g :: gs, closing, later, span, derives.append items, closes, hstart, hstop, ?_⟩
      simpa using delivers

theorem delivers_of_deliver {pending : List Pending} {g f : Form} {progress : Progress}
    {mid rest : List (Token Mark)} (delivered : deliver g pending = .ok progress)
    (finished : progress = .done f ∧ rest = mid ∨
      ∃ inner, progress = .inside inner ∧ Completes inner mid f rest) :
    Delivers pending g mid f rest := by
  induction pending generalizing g with
  | nil =>
    cases delivered
    rcases finished with ⟨done, rfl⟩ | ⟨inner, inside, -⟩
    · cases done
      exact ⟨rfl, rfl⟩
    · cases inside
  | cons top outer ih =>
    cases top with
    | quote start =>
      obtain ⟨span, made, delivered⟩ := bind_eq_ok.mp delivered
      obtain ⟨hstart, hstop⟩ := Span.make_eq_ok made
      exact ⟨span, hstart, hstop, ih delivered⟩
    | list start children =>
      cases delivered
      rcases finished with ⟨done, -⟩ | ⟨inner, inside, completes⟩
      · cases done
      · cases inside
        obtain ⟨gs, closing, later, span, items, closes, hstart, hstop, delivers⟩ := completes
        exact ⟨gs, closing, later, span, items, closes, hstart, hstop, delivers⟩

/-- What one token that is taken does: a complete form is delivered, or a form is entered. -/
inductive Taking (pending : List Pending) (token : Token Mark) (rest : List (Token Mark))
    (progress : Progress) :
    Prop
  | atom (kind : token.kind = .atom)
      (delivered : deliver (.leaf ⟨.atom token.content, token.span⟩) pending = .ok progress)
  | quote (kind : token.kind = .quote) (more : endsHere rest = false)
      (entered : progress = .inside (.quote token.span.start :: pending))
  | opening (kind : token.kind = .opening)
      (entered : progress = .inside (.list token.span.start [] :: pending))
  | closing {span : Span} {children : List Form} {outer : List Pending}
      (kind : token.kind = .closing)
      (top : pending = .list span.start children :: outer) (stop : span.stop = token.span.stop)
      (delivered : deliver (.node ⟨.list, span⟩ children.reverse) outer = .ok progress)

theorem taking_of_take {pending : List Pending} {token : Token Mark} {rest : List (Token Mark)}
    {progress : Progress} (taken : take pending token rest = .ok progress) :
    Taking pending token rest progress := by
  cases kind : token.kind with
  | atom =>
    simp only [take, kind] at taken
    exact .atom kind (mapError_eq_ok.mp taken)
  | quote =>
    simp only [take, kind] at taken
    split at taken
    next => cases taken
    next more =>
      cases taken
      exact .quote kind (by simpa using more) rfl
  | opening =>
    simp only [take, kind] at taken
    cases taken
    exact .opening kind rfl
  | closing =>
    cases pending with
    | nil => simp [take, kind, reject] at taken
    | cons top outer =>
      cases top with
      | quote start => simp [take, kind, reject] at taken
      | list start children =>
        simp only [take, kind] at taken
        obtain ⟨span, made, delivered⟩ := bind_eq_ok.mp taken
        obtain ⟨rfl, stop⟩ := Span.make_eq_ok (mapError_eq_ok.mp made)
        exact .closing kind rfl stop (mapError_eq_ok.mp delivered)

theorem completes_of_read {last : Nat} {pending : List Pending} {ts rest : List (Token Mark)}
    {f : Form} (ran : read last pending ts = .ok (f, rest)) : Completes pending ts f rest := by
  induction ts generalizing pending with
  | nil => cases ran
  | cons token ts ih =>
    obtain ⟨progress, taken, ran⟩ := bind_eq_ok.mp ran
    have finished : progress = .done f ∧ rest = ts ∨
        ∃ inner, progress = .inside inner ∧ Completes inner ts f rest := by
      cases progress with
      | done form =>
        cases ran
        exact .inl ⟨rfl, rfl⟩
      | inside inner => exact .inr ⟨inner, rfl, ih ran⟩
    -- A form that is entered is still to be completed.
    have entered {inner : List Pending} (here : progress = .inside inner) :
        Completes inner ts f rest := by
      rcases finished with ⟨done, -⟩ | ⟨inner', inside, completes⟩
      · rw [here] at done
        cases done
      · rw [here] at inside
        cases inside
        exact completes
    cases taking_of_take taken with
    | atom kind delivered =>
      exact completes_of_delivers (.atom kind .nil) (delivers_of_deliver delivered finished)
    | quote kind more inside =>
      obtain ⟨g, mid, span, derives, hstart, hstop, delivers⟩ := entered inside
      exact completes_of_delivers (.quote kind derives hstart hstop .nil) delivers
    | opening kind inside =>
      obtain ⟨gs, closing, mid, span, items, closes, hstart, hstop, delivers⟩ := entered inside
      exact completes_of_delivers (.list kind items closes hstart hstop .nil) delivers
    | @closing span children outer kind top stop delivered =>
      subst top
      have delivers := delivers_of_deliver delivered finished
      exact ⟨[], token, ts, span, .nil, kind, rfl, stop, by simpa using delivers⟩

theorem derives_of_readForm {ts rest : List (Token Mark)} {f : Form}
    (ran : readForm ts = .ok (f, rest)) : Derives ts [f] rest :=
  completes_of_read ran

/-! ## Tokens in order never lead to a fault -/

def Pending.start : Pending → Nat
  | .list start _ => start
  | .quote start => start

theorem deliver_ok {f : Form} {pending : List Pending}
    (before : ∀ p ∈ pending, p.start ≤ f.span.stop) :
    (∃ g, deliver f pending = .ok (.done g)) ∨
      ∃ inner, deliver f pending = .ok (.inside inner) ∧
        ∀ p ∈ inner, ∃ q ∈ pending, q.start = p.start := by
  induction pending generalizing f with
  | nil => exact .inl ⟨f, rfl⟩
  | cons top outer ih =>
    cases top with
    | list start children =>
      refine .inr ⟨_, rfl, ?_⟩
      intro p hp
      rcases List.mem_cons.mp hp with rfl | hp
      · exact ⟨.list start children, by simp, rfl⟩
      · exact ⟨p, by simp [hp], rfl⟩
    | quote start =>
      have ordered : start ≤ f.span.stop := before (.quote start) (by simp)
      simp only [deliver, Span.make_ok ordered, ok_bind]
      rcases ih (f := .node ⟨.quote, ⟨start, f.span.stop, ordered⟩⟩ [f])
          fun p hp => before p (by simp [hp]) with done | ⟨inner, inside, from_outer⟩
      · exact .inl done
      · refine .inr ⟨inner, inside, fun p hp => ?_⟩
        obtain ⟨q, hq, same⟩ := from_outer p hp
        exact ⟨q, by simp [hq], same⟩

/-- Reading comes to a result or to a rejection, and not to a fault. -/
def Answers (reading : Except Failure (Form × List (Token Mark))) : Prop :=
  (∃ result, reading = .ok result) ∨ ∃ r, reading = .error (.rejected r)

/-- After a form that ends behind the start of each pending one, reading comes to what it comes to
inside of those that are still pending. -/
theorem resume_answers {last : Nat} {f : Form} {pending : List Pending} {ts : List (Token Mark)}
    (before : ∀ p ∈ pending, p.start ≤ f.span.stop)
    (on : ∀ inner : List Pending, (∀ p ∈ inner, ∃ q ∈ pending, q.start = p.start) →
      Answers (read last inner ts)) : Answers (resume last (deliver f pending) ts) := by
  rcases deliver_ok before with ⟨g, done⟩ | ⟨inner, inside, from_outer⟩
  · refine .inl ⟨(g, ts), ?_⟩
    rw [resume, done]
    rfl
  · rw [resume, inside]
    exact on inner from_outer

theorem read_no_fault (last : Nat) {pending : List Pending} {ts : List (Token Mark)}
    (before : ∀ p ∈ pending, ∀ t ∈ ts, p.start ≤ t.span.stop)
    (order : ts.Pairwise fun a b => a.span.start ≤ b.span.stop) :
    Answers (read last pending ts) := by
  induction ts generalizing pending with
  | nil => exact .inr ⟨_, rfl⟩
  | cons token ts ih =>
    obtain ⟨later, order⟩ := List.pairwise_cons.mp order
    have on (outer : List Pending) (among : ∀ p ∈ outer, p ∈ pending) (inner : List Pending)
        (from_outer : ∀ p ∈ inner, ∃ q ∈ outer, q.start = p.start) :
        Answers (read last inner ts) := by
      refine ih (fun p hp t ht => ?_) order
      obtain ⟨q, hq, same⟩ := from_outer p hp
      rw [← same]
      exact before q (among q hq) t (by simp [ht])
    have deeper (p : Pending) (hp : p.start = token.span.start) :
        Answers (read last (p :: pending) ts) := by
      refine ih (fun q hq t ht => ?_) order
      rcases List.mem_cons.mp hq with rfl | hq
      · rw [hp]
        exact later t ht
      · exact before q hq t (by simp [ht])
    cases kind : token.kind with
    | atom =>
      have step : read last pending (token :: ts) =
          resume last (deliver (.leaf ⟨.atom token.content, token.span⟩) pending) ts := by
        simp only [read_cons, take, kind, resume]
      rw [step]
      exact resume_answers (fun p hp => before p hp token (by simp)) (on pending fun p hp => hp)
    | quote =>
      by_cases ends : endsHere ts = true
      · exact .inr ⟨_, by simp only [read_cons, take, kind, ends, if_true, reject, error_bind]; rfl⟩
      · have step : read last pending (token :: ts) =
            read last (.quote token.span.start :: pending) ts := by
          simp [read_cons, take, kind, ends, follow]
        rw [step]
        exact deeper _ rfl
    | opening =>
      have step : read last pending (token :: ts) =
          read last (.list token.span.start [] :: pending) ts := by
        simp [read_cons, take, kind, follow]
      rw [step]
      exact deeper _ rfl
    | closing =>
      cases pending with
      | nil => exact .inr ⟨_, by simp only [read_cons, take, kind, reject, error_bind]; rfl⟩
      | cons top outer =>
        cases top with
        | quote from_ =>
          exact .inr ⟨_, by simp only [read_cons, take, kind, reject, error_bind]; rfl⟩
        | list from_ children =>
          have ordered : from_ ≤ token.span.stop :=
            before (.list from_ children) (by simp) token (by simp)
          have step : read last (.list from_ children :: outer) (token :: ts) = resume last
              (deliver (.node ⟨.list, ⟨from_, token.span.stop, ordered⟩⟩ children.reverse) outer)
                ts := by
            simp only [read_cons, take, kind, Span.make_ok ordered, mapError_ok, ok_bind, resume]
          rw [step]
          exact resume_answers (fun p hp => before p (by simp [hp]) token (by simp))
            (on outer fun p hp => by simp [hp])

end Reader

namespace Language

open Lexer Reader

variable {position : Nat} {chars : List Char} {f g : Form}

theorem readWhole_of_derives {chars : List Placed} {tokens : List (Token Mark)}
    (split_eq : Lexer.split chars = .ok tokens) (derives : Derives tokens [f] []) :
    parenthesised.readWhole chars = .ok f := by
  simp only [readWhole, parenthesised, split_eq, ok_bind, readForm_of_derives derives]
  rfl

theorem derives_of_readWhole {chars : List Placed} (ran : parenthesised.readWhole chars = .ok f) :
    ∃ tokens, Lexer.split chars = .ok tokens ∧ Derives tokens [f] [] := by
  obtain ⟨tokens, split_eq, ran⟩ := bind_eq_ok.mp ran
  obtain ⟨⟨g, rest⟩, read_eq, ran⟩ := bind_eq_ok.mp ran
  cases rest with
  | nil =>
    cases ran
    exact ⟨tokens, split_eq, derives_of_readForm read_eq⟩
  | cons token rest =>
    simp only [List.head?_cons, List.getLast?_cons, reject] at ran
    cases ran

/-- Characters whose positions do not decrease read as the form that the grammar derives for their
tokens, or they are rejected. -/
theorem readWhole_sorted {chars : List Placed} (sorted : Sorted position chars) :
    (∃ tokens f, Lexer.split chars = .ok tokens ∧ Derives tokens [f] [] ∧
      parenthesised.readWhole chars = .ok f) ∨
    ∃ r, parenthesised.readWhole chars = .error (.rejected r) := by
  have idle : Run.idle.Ahead position := trivial
  rcases scan_ordered idle sorted with ⟨tokens, split_eq, ordered⟩ | ⟨r, split_eq⟩
  · have order : tokens.Pairwise fun a b => a.span.start ≤ b.span.stop :=
      ordered.order.imp fun {a b} behind =>
        Nat.le_trans a.span.start_le_stop (Nat.le_trans behind b.span.start_le_stop)
    have none : ∀ p ∈ ([] : List Pending), ∀ t ∈ tokens, p.start ≤ t.span.stop := nofun
    rcases read_no_fault (lastStop tokens) none order with ⟨⟨f, rest⟩, ran⟩ | ⟨r, ran⟩
    · cases rest with
      | nil =>
        have derives := derives_of_readForm ran
        exact .inl ⟨tokens, f, split_eq, derives, readWhole_of_derives split_eq derives⟩
      | cons token rest =>
        obtain ⟨final, last⟩ : ∃ final, (token :: rest).getLast? = some final := by
          rw [← Option.isSome_iff_exists]
          simp
        refine .inr ?_
        simp only [readWhole, parenthesised, Lexer.split, split_eq, ok_bind, readForm, ran,
          List.head?_cons, last, reject]
        exact ⟨_, rfl⟩
    · refine .inr ⟨r, ?_⟩
      simp only [readWhole, parenthesised, Lexer.split, split_eq, ok_bind, readForm, ran]
      rfl
  · refine .inr ⟨r, ?_⟩
    simp only [readWhole, parenthesised, Lexer.split, split_eq]
    rfl

/-- The tokens of characters at consecutive positions are those of a form. -/
def Parses (position : Nat) (chars : List Char) (f : Form) : Prop :=
  ∃ tokens, tokensAt position chars = some tokens ∧ Derives tokens [f] []

/-- A text reads as the one form that the grammar derives for it. -/
theorem readWhole_eq_ok (fits : position + chars.length < positionLimit) :
    parenthesised.readWhole (Placed.run position chars) = .ok f ↔ Parses position chars f := by
  constructor
  · intro ran
    rcases readWhole_sorted (sorted_run fits) with
      ⟨tokens, g, split_eq, derives, ok⟩ | ⟨r, rejected⟩
    · rw [ran] at ok
      cases ok
      rcases split_run fits with ⟨found, found_eq, found_split⟩ | ⟨-, r, rejected⟩
      · rw [split_eq] at found_split
        cases found_split
        exact ⟨tokens, found_eq, derives⟩
      · rw [split_eq] at rejected
        cases rejected
    · rw [ran] at rejected
      cases rejected
  · rintro ⟨tokens, tokens_eq, derives⟩
    exact readWhole_of_derives (split_of_tokensAt tokens_eq fits) derives

/-- A text that does not read is rejected. -/
theorem readWhole_run (fits : position + chars.length < positionLimit) :
    (∃ f, Parses position chars f ∧ parenthesised.readWhole (Placed.run position chars) = .ok f) ∨
      ∃ r, parenthesised.readWhole (Placed.run position chars) = .error (.rejected r) := by
  rcases readWhole_sorted (sorted_run fits) with ⟨tokens, f, -, -, ok⟩ | rejected
  · exact .inl ⟨f, (readWhole_eq_ok fits).mp ok, ok⟩
  · exact .inr rejected

/-- Characters at consecutive positions are exactly the characters of a form, without comments. -/
def Reads (position : Nat) (chars : List Char) (f : Form) : Prop :=
  ∃ tokens, Lexes position chars tokens ∧ Derives tokens [f] []

theorem parses_iff_reads (plain : ';' ∉ chars) :
    Parses position chars f ↔ Reads position chars f := by
  constructor
  · rintro ⟨tokens, tokens_eq, derives⟩
    exact ⟨tokens, lexes_of_tokensAt tokens_eq plain, derives⟩
  · rintro ⟨tokens, lexes, derives⟩
    exact ⟨tokens, tokensAt_of_lexes lexes plain, derives⟩

theorem readWhole_of_reads (reads : Reads position chars f)
    (fits : position + chars.length < positionLimit) (plain : ';' ∉ chars) :
    parenthesised.readWhole (Placed.run position chars) = .ok f :=
  (readWhole_eq_ok fits).mpr ((parses_iff_reads plain).mpr reads)

/-- A text has at most one reading. -/
theorem Parses.unique (first : Parses position chars f) (second : Parses position chars g) :
    f = g := by
  obtain ⟨tokens, tokens_eq, derives⟩ := first
  obtain ⟨tokens', tokens_eq', derives'⟩ := second
  rw [tokens_eq] at tokens_eq'
  cases tokens_eq'
  have same := (readForm_of_derives derives).symm.trans (readForm_of_derives derives')
  cases same
  rfl

/-- Nothing reads as a form if it has no characters. -/
theorem Reads.nonempty (reads : Reads position chars f) : chars ≠ [] := by
  obtain ⟨tokens, lexes, derives⟩ := reads
  cases lexes with
  | nil => cases derives
  | blank _ _ => simp
  | mark _ _ => simp
  | atom nonempty _ _ _ => simp [nonempty]

/-- A text reads as at most one form. -/
theorem Reads.unique (first : Reads position chars f) (second : Reads position chars g)
    (fits : position + chars.length < positionLimit) (plain : ';' ∉ chars) : f = g := by
  have same :=
    (readWhole_of_reads first fits plain).symm.trans (readWhole_of_reads second fits plain)
  cases same
  rfl

end Language

end FormEdit
