import LeastRecent.Cache.Session

/-!
# Several parties with one cache

Parties that share a cache each make their own calls, all at the same time. Here they are served one after another. It
is assumed that the keys of different parties differ and that there is room for all of them: then a party does not notice
the others, whose calls interrupt its own and are interrupted by them (`others_unnoticed`). Calls that overlap without
one of them containing the other are not modelled; that they make no difference either is assumed.
-/

namespace LeastRecent.Cache.Session

variable {κ ν : Type} [BEq κ] [ToString κ] [ToString ν]

/-- The answers to uninterrupted requests, and the session after them. -/
def serve (s : Session κ ν) (rs : List (Request κ ν)) : Session κ ν × List (Answer κ ν) :=
  let m := Interleave.Machine.session system s (.plain rs)
  (m.state, m.records.map fun r => r.result.answer)

/-- The answers to each party. -/
def serveParties (s : Session κ ν) : List (List (Request κ ν)) → Session κ ν × List (List (Answer κ ν))
  | [] => (s, [])
  | rs :: rest =>
    let (s₁, answers) := s.serve rs
    let (s₂, others) := s₁.serveParties rest
    (s₂, answers :: others)

/-- The entries of the cache by key, in increasing order, if they can be listed. -/
def inventory (s : Session κ ν) (le : κ → κ → Bool) : Except Fault (List (κ × ν)) :=
  s.cache.entries.2.map fun es => (es.map fun e => (e.key, e.value)).mergeSort fun a b => le a.1 b.1

end LeastRecent.Cache.Session
