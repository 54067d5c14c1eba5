import HeapFlow.WorkList

/-!
# Events and observers

Observers are told of what happens in an analysis, each event to all observers in order, and may
react to it at once. Part of what is analysed is the work of observers: they make the entry methods
reachable, initialize classes, run started threads and copy array elements. Others only watch.
-/

namespace HeapFlow

inductive Event where
  | start
  | finish
  /-- A method is reached for the first time in any context. -/
  | method (m : MethodId)
  /-- The body of a method in a context has been turned into facts. -/
  | methodIn (m : CMethodId)
  | initialized (cls : String)
  | call (e : CCallEdge)
  /-- A call has no target; static calls have no receiver. -/
  | unresolved (recv : Option CObjId) (ctx : CtxId) (site : CallSite)
  | grown (p : PtrId) (delta : Objects)
deriving DecidableEq

def Event.text (p : Program) (r : Registry) : Event → String
  | start => "start"
  | finish => "finish"
  | method m => "method " ++ m.text
  | methodIn m => "csmethod " ++ r.methodText m
  | initialized c => "init " ++ c
  | call e => "edge " ++ e.text r.siteText r.methodText
  | unresolved recv c s =>
    "unresolved " ++ r.contextText c ++ ":" ++ s.label ++ " on " ++ r.receiverText recv
  | grown i delta =>
    let shown := match r.pointers.get? i with
      | some x => r.pointerText p x
      | none => ""
    "pts " ++ shown ++ " += [" ++ ", ".intercalate (delta.toList.map r.objText) ++ "]"

inductive Observer where
  /-- Makes the entry methods reachable, with or without those that the runtime calls. -/
  | entryPoints (implicit : Bool)
  | classInit
  | threads
  | arrayCopy
  | checker
  | profiler
  /-- Writes events down, with a word in front; a scripted one also acts on them. -/
  | recorder (lead : String) (scripted : Bool)
deriving DecidableEq, Repr, Inhabited

end HeapFlow
