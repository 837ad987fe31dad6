import Mlmq.Lib.Transition

/-! # Remote procedure calls

Callers that share a server. A caller submits a request and waits, the server executes the request
in one step, and the caller gets what it has ended with. A caller may leave at any time; a request
that it has left behind may still be executed, or never.

A run shows which requests have been executed, in their order (`executed`), and what each caller has
submitted and received. -/

namespace Mlmq.Lib.Rpc

open Mlmq.Lib.Transition

variable {σ η ρ ω : Type*}

/-! ### States and steps -/

/-- Where a caller is. -/
inductive Caller (ρ ω : Type*)
  | idle
  | waiting (request : ρ)
  -- the request has been executed
  | answered (request : ρ) (outcome : ω)
  -- the caller has left, and a request may still be executed
  | left (pending : Option ρ)

/-- The request that has not been executed yet. -/
def Caller.pending : Caller ρ ω → Option ρ
  | .waiting request => some request
  | .left pending => pending
  | _ => none

structure State (σ η ρ ω : Type*) where
  server : σ
  caller : η → Caller ρ ω

/-- What happens. -/
inductive Label (η ρ ω : Type*)
  | submit (h : η) (request : ρ)
  | execute (h : η) (request : ρ) (outcome : ω)
  | receive (h : η) (outcome : ω)
  | leave (h : η)

def start (server : σ) : State σ η ρ ω where
  server
  caller _ := .idle

/-- The requests that have been executed. -/
def executed (ms : List (Label η ρ ω)) : List (η × ρ × ω) :=
  ms.filterMap fun
    | .execute h request outcome => some (h, request, outcome)
    | _ => none

theorem executed_append (ms ms' : List (Label η ρ ω)) :
    executed (ms ++ ms') = executed ms ++ executed ms' := List.filterMap_append

variable [DecidableEq η]

/-- The state with another state of a caller. -/
def State.set (s : State σ η ρ ω) (h : η) (c : Caller ρ ω) : State σ η ρ ω :=
  { s with caller := Function.update s.caller h c }

/-- **The steps**, where `serves` are those of the server. -/
inductive Step (serves : σ → η × ρ × ω → σ → Prop) :
    State σ η ρ ω → Label η ρ ω → State σ η ρ ω → Prop
  | submit {s h} (request : ρ) (hh : s.caller h = .idle) :
    Step serves s (.submit h request) (s.set h (.waiting request))
  | execute {s h request outcome server} (hh : s.caller h = .waiting request)
    (hserves : serves s.server (h, request, outcome) server) :
    Step serves s (.execute h request outcome) { s.set h (.answered request outcome) with server }
  | executeLate {s h request outcome server} (hh : s.caller h = .left (some request))
    (hserves : serves s.server (h, request, outcome) server) :
    Step serves s (.execute h request outcome) { s.set h (.left none) with server }
  | receive {s h request outcome} (hh : s.caller h = .answered request outcome) :
    Step serves s (.receive h outcome) (s.set h .idle)
  | leave (s h) : Step serves s (.leave h) (s.set h (.left (s.caller h).pending))

/-! ### What a run shows of a caller -/

/-- The requests that a caller has submitted. -/
def submits (h : η) (ms : List (Label η ρ ω)) : List ρ :=
  ms.filterMap fun
    | .submit h' request => if h' = h then some request else none
    | _ => none

/-- What a caller has received. -/
def receives (h : η) (ms : List (Label η ρ ω)) : List ω :=
  ms.filterMap fun
    | .receive h' outcome => if h' = h then some outcome else none
    | _ => none

theorem submits_append (h : η) (ms ms' : List (Label η ρ ω)) :
    submits h (ms ++ ms') = submits h ms ++ submits h ms' := List.filterMap_append

theorem receives_append (h : η) (ms ms' : List (Label η ρ ω)) :
    receives h (ms ++ ms') = receives h ms ++ receives h ms' := List.filterMap_append

end Mlmq.Lib.Rpc
