import Lisp.World

/-!
# Parameters and arguments

A call binds parameters to arguments in order. A parameter list may end
in `&` and one more name, which takes the arguments that are left as a
list. The number of arguments is checked before anything else.
-/

namespace Lisp

namespace Call

/-- The mark in front of the parameter that takes what is left. -/
def restMark : String := "&"

/-- The names that take one argument each. -/
def positional (params : List String) : List String := params.takeWhile (· != restMark)

/-- Later bindings of a name win over earlier ones. -/
def bindAll (pairs : List (String × Value)) : List (String × Value) :=
  pairs.foldl (fun bindings pair => Scope.bind pair.1 pair.2 bindings) []

/-- What a call binds. -/
def bindings (params : List String) (args : List Value) :
    Except Cause (List (String × Value)) :=
  let names := positional params
  match params.drop names.length with
  | [] =>
    if args.length = names.length then .ok (bindAll (names.zip args))
    else .error (.callArity false names.length args.length)
  | _ :: rest =>
    if args.length < names.length then .error (.callArity true names.length args.length)
    else match rest with
      | [] => .error .restMissing
      | name :: _ =>
        .ok (bindAll (names.zip args ++ [(name, .list (args.drop names.length))]))

end Call

/-- Enters a new scope inside `parent` with the parameters bound. A
call that does not fit makes no scope. -/
def Action.enterCall (parent : ScopeId) (params : List String) (args : List Value) :
    Action ScopeId := do
  let bindings ← Action.ofExcept (Call.bindings params args)
  Action.enter (some parent) bindings

end Lisp
