import FormEdit.Form.Assembling
import FormEdit.Proofs.Grammar.Derives

/-!
# Assembled forms are the forms that are read

The pending forms of the reader are the open nodes of an assembly: a list with the children it has
so far, a quote without any. Each token does the same to both (`take_inside`), so a form that is
assembled token by token is the form that the reader returns, with the same tokens left, and where
one of them rejects the tokens or meets a fault so does the other (`assembled_forms_are_read`). In
particular no check of the assembly ever fails: the reader makes none of them.
-/

namespace FormEdit

namespace Reader

def Pending.node : Pending → OpenNode
  | .list start children => ⟨.list, start, children⟩
  | .quote start => ⟨.quote, start, []⟩

/-- Where the reader stands, as an assembly. -/
def Progress.assembly : Progress → Assembly
  | .done form => ⟨[], some form⟩
  | .inside pending => ⟨pending.map Pending.node, none⟩

theorem inside_ne_nil_of_deliver {f : Form} {pending inner : List Pending}
    (delivered : deliver f pending = .ok (.inside inner)) : inner ≠ [] := by
  induction pending generalizing f with
  | nil => cases delivered
  | cons top outer ih =>
    cases top with
    | list start children =>
      cases delivered
      exact List.cons_ne_nil _ _
    | quote start =>
      obtain ⟨span, -, delivered⟩ := bind_eq_ok.mp delivered
      exact ih delivered

/-- Inside of a form there is one that is pending. -/
theorem inside_ne_nil {pending inner : List Pending} {token : Token Mark} {rest : List (Token Mark)}
    (taken : take pending token rest = .ok (.inside inner)) : inner ≠ [] := by
  cases taking_of_take taken with
  | atom _ delivered => exact inside_ne_nil_of_deliver delivered
  | quote _ _ entered =>
    cases entered
    exact List.cons_ne_nil _ _
  | opening _ entered =>
    cases entered
    exact List.cons_ne_nil _ _
  | closing _ _ _ delivered => exact inside_ne_nil_of_deliver delivered

end Reader

namespace Assembly

open Reader

variable {f : Form} {pending : List Pending} {position : Nat}

theorem hasRoom_inside (pending : List Pending) :
    (Progress.inside pending).assembly.hasRoom = true := by
  cases pending with
  | nil => rfl
  | cons top outer => rfl

theorem quotes_put (a : Assembly) (f : Form) : (a.put f).quotes = a.quotes := by
  obtain ⟨opened, root⟩ := a
  cases opened with
  | nil => rfl
  | cons node outer =>
    simp only [put, quotes, List.takeWhile_cons]
    split <;> rfl

/-- Leaving a node that may have as many children as it has. -/
theorem leave_allowed {node : OpenNode}
    (allowed : node.kind.arity.allows node.children.length = true) (outer : List OpenNode)
    (position : Nat) :
    leave ⟨node :: outer, none⟩ position = (Span.make node.start position).map fun span =>
      put ⟨outer, none⟩ (.node ⟨node.kind, span⟩ node.children.reverse) := by
  simp only [leave, allowed, if_true]
  cases Span.make node.start position with
  | error fault => rfl
  | ok span => rfl

/-- A complete form is handed on through the quotes that it completes. -/
theorem leaveQuotes_put (stop : f.span.stop = position) :
    ((Progress.inside pending).assembly.put f).leaveQuotes position =
      (deliver f pending).map Progress.assembly := by
  induction pending generalizing f with
  | nil => rfl
  | cons top outer ih =>
    cases top with
    | list start children => rfl
    | quote start =>
      -- The quotes further out are as many before the form is handed on as they are after that.
      have onward (g : Form) : leaveEach position (Progress.inside outer).assembly.quotes
          ((Progress.inside outer).assembly.put g) =
            ((Progress.inside outer).assembly.put g).leaveQuotes position := by
        rw [leaveQuotes, quotes_put]
      have step : ((Progress.inside (.quote start :: outer)).assembly.put f).leaveQuotes position =
          leave ⟨⟨.quote, start, [f]⟩ :: outer.map Pending.node, none⟩ position >>=
            leaveEach position (Progress.inside outer).assembly.quotes := rfl
      rw [step, leave_allowed rfl, deliver, stop]
      cases made : Span.make start position with
      | error fault => rfl
      | ok span =>
        obtain ⟨-, ends⟩ := Span.make_eq_ok made
        exact (onward _).trans (ih ends)

/-- A list that is closed is handed on with its children. -/
theorem take_closing {token : Token Mark} (kind : token.kind = .closing) (start : Nat)
    (children : List Form) (outer : List Pending) (rest : List (Token Mark)) :
    (Progress.inside (.list start children :: outer)).assembly.take token rest =
      (Reader.take (.list start children :: outer) token rest).map Progress.assembly := by
  have left : (Progress.inside (.list start children :: outer)).assembly.leave token.span.stop =
      (Span.make start token.span.stop).map fun span =>
        (Progress.inside outer).assembly.put (.node ⟨.list, span⟩ children.reverse) :=
    leave_allowed rfl _ _
  have assembled : (Progress.inside (.list start children :: outer)).assembly.take token rest =
      ((Progress.inside (.list start children :: outer)).assembly.leave token.span.stop >>=
        (·.leaveQuotes token.span.stop)).mapError .fault := by
    simp only [Assembly.take, kind]
    rfl
  have delivered : Reader.take (.list start children :: outer) token rest =
      (Span.make start token.span.stop >>= fun span =>
        deliver (.node ⟨.list, span⟩ children.reverse) outer).mapError .fault := by
    simp only [Reader.take, kind]
    cases Span.make start token.span.stop with
    | error fault => rfl
    | ok span => rfl
  rw [assembled, left, delivered]
  cases made : Span.make start token.span.stop with
  | error fault => rfl
  | ok span =>
    obtain ⟨-, ends⟩ := Span.make_eq_ok made
    have handed := @leaveQuotes_put (.node ⟨.list, span⟩ children.reverse) outer _ ends
    exact (congrArg (Except.mapError Failure.fault) handed).trans (mapError_map _ _ _)

/-- Each token does the same to the assembly and to the pending forms. -/
theorem take_inside (pending : List Pending) (token : Token Mark) (rest : List (Token Mark)) :
    (Progress.inside pending).assembly.take token rest =
      (Reader.take pending token rest).map Progress.assembly := by
  have room := hasRoom_inside pending
  cases kind : token.kind with
  | atom =>
    have added : (Progress.inside pending).assembly.add (.atom token.content) token.span =
        .ok ((Progress.inside pending).assembly.put (.leaf ⟨.atom token.content, token.span⟩)) := by
      rw [add, room]
      rfl
    have handed := @leaveQuotes_put (.leaf ⟨.atom token.content, token.span⟩) pending _ rfl
    simp only [Assembly.take, Reader.take, kind, added, ok_bind]
    exact (congrArg (Except.mapError Failure.fault) handed).trans (mapError_map _ _ _)
  | quote =>
    simp only [Assembly.take, Reader.take, kind, enter, room, if_true]
    split <;> rfl
  | opening =>
    simp only [Assembly.take, Reader.take, kind, enter, room, if_true]
    rfl
  | closing =>
    cases pending with
    | nil =>
      simp only [Assembly.take, Reader.take, kind]
      rfl
    | cons top outer =>
      cases top with
      | quote start =>
        simp only [Assembly.take, Reader.take, kind]
        rfl
      | list start children => exact take_closing kind start children outer rest

theorem read_inside (last : Nat) (tokens : List (Token Mark)) (pending : List Pending) :
    Assembly.read last (Progress.inside pending).assembly tokens =
      Reader.read last pending tokens := by
  induction tokens generalizing pending with
  | nil =>
    cases pending with
    | nil => rfl
    | cons top outer =>
      cases top with
      | list start children => rfl
      | quote start => rfl
  | cons token rest ih =>
    rw [read_cons, Assembly.read, take_inside]
    cases taken : Reader.take pending token rest with
    | error failure => rfl
    | ok progress =>
      cases progress with
      | done f => rfl
      | inside inner =>
        obtain ⟨top, outer, rfl⟩ := List.exists_cons_of_ne_nil (inside_ne_nil taken)
        exact ih (top :: outer)

/-- A form is assembled from tokens just as it is read, whatever the tokens are: the same form with
the same tokens left, the same rejection or the same fault. -/
theorem assembled_forms_are_read (tokens : List (Token Mark)) :
    Assembly.readForm tokens = Reader.readForm tokens :=
  read_inside (lastStop tokens) tokens []

end Assembly

end FormEdit
