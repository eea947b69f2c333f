import SsaIr.Builder

/-!
# Calls of a builder as data

A session with a builder is a list of calls. Each call has a reply or an error, and leaves a
builder for the next one.
-/

namespace SsaIr.Builder

inductive Call where
  | newTemp
  | newLabel
  | createFunction (name returnType : String)
  | addParameter (name type : String)
  | createBlock (label : String)
  | positionAtEnd (label : String)
  | binary (op : BinaryOp) (lhs rhs : Value) (type : String)
  | icmp (predicate : Predicate) (lhs rhs : Value)
  | load (pointer : Value) (type : String)
  | store (value pointer : Value)
  | alloca (type : String)
  | getElementPtr (pointer : Value) (indices : List Value) (inbounds : Bool) (type : String)
  | call (callee : Value) (arguments : List Value) (type : String)
  | phi (type : String) (incoming : List (Value × String))
  | copy (name : String) (value : Value)
  | ret (value : Option Value)
  | branch (target : String)
  | condBranch (condition : Value) (whenTrue whenFalse : String)
  | compareBranch (predicate : Predicate) (lhs rhs : Value) (whenTrue whenFalse : String)
  | hasTerminator
  | finish
  deriving DecidableEq, Inhabited

inductive Reply where
  /-- The call did what it was asked to. -/
  | done
  /-- A fresh name or label. -/
  | name (text : String)
  /-- The function begun. -/
  | created (f : Function)
  /-- The value that refers to a new parameter or result. -/
  | value (v : Value)
  /-- The call made has no result. -/
  | noValue
  | answer (yes : Bool)
  /-- The function handed out, if there was one. -/
  | finished (f : Option Function)
  deriving DecidableEq, Inhabited

/-- Turn a value, or an error, into a reply. -/
def replyValue (r : Builder × Except Error Value) : Builder × Except Error Reply :=
  (r.1, r.2.map .value)

/-- Turn success, or an error, into a reply. -/
def replyDone (r : Builder × Except Error Unit) : Builder × Except Error Reply :=
  (r.1, r.2.map fun _ => .done)

/-- The builder after a call, and its reply. -/
def run (b : Builder) : Call → Builder × Except Error Reply
  | .newTemp => (b.newTemp.1, .ok (.name b.newTemp.2))
  | .newLabel => (b.newLabel.1, .ok (.name b.newLabel.2))
  | .createFunction name returnType =>
    (createFunction name returnType, .ok (.created { name, returnType }))
  | .addParameter name type => replyValue (b.addParameter name type)
  | .createBlock label => replyDone (b.createBlock label)
  | .positionAtEnd label => replyDone (b.positionAtEnd label)
  | .binary op lhs rhs type => replyValue (b.binary op lhs rhs type)
  | .icmp predicate lhs rhs => replyValue (b.icmp predicate lhs rhs)
  | .load pointer type => replyValue (b.load pointer type)
  | .store value pointer => replyDone (b.store value pointer)
  | .alloca type => replyValue (b.alloca type)
  | .getElementPtr pointer indices inbounds type =>
    replyValue (b.getElementPtr pointer indices inbounds type)
  | .call callee arguments type =>
    let (b, value) := b.call callee arguments type
    (b, value.map fun value => (value.map .value).getD .noValue)
  | .phi type incoming => replyValue (b.phi type incoming)
  | .copy name value => replyDone (b.copy name value)
  | .ret value => replyDone (b.ret value)
  | .branch target => replyDone (b.branch target)
  | .condBranch condition whenTrue whenFalse =>
    replyDone (b.condBranch condition whenTrue whenFalse)
  | .compareBranch predicate lhs rhs whenTrue whenFalse =>
    replyDone (b.compareBranch predicate lhs rhs whenTrue whenFalse)
  | .hasTerminator => (b, .ok (.answer b.hasTerminator))
  | .finish => (b.finish.1, .ok (.finished b.finish.2))

/-- The builder after a list of calls, and their replies. -/
def runAll (b : Builder) : List Call → Builder × List (Except Error Reply)
  | [] => (b, [])
  | c :: cs =>
    let (b, reply) := b.run c
    let (b, replies) := runAll b cs
    (b, reply :: replies)

end SsaIr.Builder
