import LiteMultiKV.Core.Run

/-!
# Services with sessions

A service keeps one store for all its clients and a session for each of its
connections.  It serves one request after the other, so a list of openings,
requests and closings has one meaning.  What a network server does is explained
by a service if the replies in its traffic are the answers of the service to the
same requests in the same order.

The traffic of a connection is in turn if there is one send for every reply,
before the next request is served, and orderly if that send takes the first
bytes of the reply.
-/

namespace LiteMultiKV.Sessions

open List Run

variable {C S T N Q P A B : Type*}

/-- What a request makes of the store and of the session it comes in on, and the answer. -/
structure Service (S N Q A : Type*) where
  opening : N
  serve : S → N → Q → Option (S × N × A)

/-- The store, and the sessions of the connections that are open. -/
structure Hub (C S N : Type*) where
  store : S
  session : C → Option N

/-- What a client does. -/
inductive Deal (C Q : Type*) where
  | opened (conn : C)
  | asked (conn : C) (request : Q)
  | closed (conn : C)

/-- A hub without connections. -/
def Hub.empty (C : Type*) {S N : Type*} (store : S) : Hub C S N where
  store := store
  session := fun _ => none

/-- What can be seen of a network server. -/
inductive Traffic (C Q B : Type*) where
  | opened (conn : C)
  | served (conn : C) (request : Q) (reply : List B)
  | sent (conn : C) (bytes : List B)
  | closed (conn : C)

def Traffic.deal (view : Q → P) : Traffic C Q B → Option (Deal C P)
  | .opened conn => some (.opened conn)
  | .served conn request _ => some (.asked conn (view request))
  | .sent _ _ => none
  | .closed conn => some (.closed conn)

/-- What a service has to answer to account for the traffic. -/
def Traffic.answer : Traffic C Q B → Option (Option (List B))
  | .opened _ => some none
  | .served _ _ reply => some (some reply)
  | .sent _ _ => none
  | .closed _ => some none

section Deals

variable [DecidableEq C]

/-- A connection is opened and closed in turn, and requests come in while it is open. -/
def Service.deal (service : Service S N Q A) (hub : Hub C S N) :
    Deal C Q → Option (Hub C S N × Option A)
  | .opened conn =>
      if hub.session conn = none then
        some ({ hub with session := Function.update hub.session conn (some service.opening) },
          none)
      else none
  | .asked conn request =>
      (hub.session conn).bind fun session =>
        (service.serve hub.store session request).map fun served =>
          ({ store := served.1
             session := Function.update hub.session conn (some served.2.1) }, some served.2.2)
  | .closed conn =>
      if hub.session conn = none then none
      else some ({ hub with session := Function.update hub.session conn none }, none)

variable {service : Service S N Q (List B)} {view : P → Q} {hub middle final : Hub C S N}
variable {conn : C} {traffic : List (Traffic C P B)}

/-- Run on its own, the service gives the replies of the traffic to the requests in it, seen as
its own requests. -/
def Explains (service : Service S N Q (List B)) (view : P → Q) (hub : Hub C S N)
    (traffic : List (Traffic C P B)) (final : Hub C S N) : Prop :=
  run service.deal hub (traffic.filterMap (Traffic.deal view)) =
    some (final, traffic.filterMap Traffic.answer)

theorem explains_nil : Explains service view hub [] hub :=
  rfl

theorem Explains.append {more : List (Traffic C P B)}
    (hfirst : Explains service view hub traffic middle)
    (hsecond : Explains service view middle more final) :
    Explains service view hub (traffic ++ more) final := by
  unfold Explains at hfirst hsecond ⊢
  rw [filterMap_append, filterMap_append, run_append hfirst, hsecond]
  rfl

theorem explains_opened (hclosed : hub.session conn = none) :
    Explains service view hub [.opened conn]
      { hub with session := Function.update hub.session conn (some service.opening) } := by
  simp [Explains, Traffic.deal, Traffic.answer, run, Service.deal, hclosed]

theorem explains_served {session next : N} {request : P} {store : S} {reply : List B}
    (hopen : hub.session conn = some session)
    (hserve : service.serve hub.store session (view request) = some (store, next, reply)) :
    Explains service view hub [.served conn request reply]
      { store := store, session := Function.update hub.session conn (some next) } := by
  simp [Explains, Traffic.deal, Traffic.answer, run, Service.deal, hopen, hserve]

theorem explains_sent (bytes : List B) : Explains service view hub [.sent conn bytes] hub :=
  rfl

theorem explains_closed (hopen : hub.session conn ≠ none) :
    Explains service view hub [.closed conn]
      { hub with session := Function.update hub.session conn none } := by
  simp [Explains, Traffic.deal, Traffic.answer, run, Service.deal, hopen]

/-- The first event of explained traffic. -/
theorem Explains.head {event : Traffic C P B}
    (hexplains : Explains service view hub (event :: traffic) final) :
    ∃ middle, Explains service view hub [event] middle ∧
      Explains service view middle traffic final := by
  cases event with
  | sent conn bytes => exact ⟨hub, rfl, hexplains⟩
  | opened | served | closed =>
      obtain ⟨middle, output, rest, hstep, hrest, hanswers⟩ := run_eq_some_cons hexplains
      obtain ⟨rfl, rfl⟩ := cons.inj hanswers
      exact ⟨middle, by simp [Explains, Traffic.deal, Traffic.answer, run, hstep], hrest⟩

/-! ## Simulation -/

section Simulation

variable {concrete : Service S N Q (List B)} {abstract : Service T N P (List B)} {view : Q → P}
variable {hub final : Hub C S N}

/-- What relates two services: the stores, the sessions that requests leave, and the requests they
agree on. -/
structure Simulates (concrete : Service S N Q (List B)) (abstract : Service T N P (List B))
    (view : Q → P) (relation : S → T → Prop) (valid : N → Prop) (admitted : Q → Prop) : Prop where
  opening_eq : concrete.opening = abstract.opening
  opening_valid : valid concrete.opening
  serve_eq : ∀ store twin session request after next reply, relation store twin → valid session →
    admitted request → concrete.serve store session request = some (after, next, reply) →
    valid next ∧ ∃ twinAfter, relation after twinAfter ∧
      abstract.serve twin session (view request) = some (twinAfter, next, reply)

variable {relation : S → T → Prop} {valid : N → Prop} {admitted : Q → Prop}

/-- One event of the concrete service is one of the abstract service. -/
theorem Simulates.step (hsimulates : Simulates concrete abstract view relation valid admitted)
    {event : Traffic C Q B} {twin : T} (hrelation : relation hub.store twin)
    (hvalid : ∀ conn session, hub.session conn = some session → valid session)
    (hadmitted : ∀ conn request reply, event = .served conn request reply → admitted request)
    (hexplains : Explains concrete id hub [event] final) :
    (∀ conn session, final.session conn = some session → valid session) ∧
      ∃ twinFinal, relation final.store twinFinal ∧
        Explains abstract view { store := twin, session := hub.session } [event]
          { store := twinFinal, session := final.session } := by
  have hupdate : ∀ conn session other found, valid session →
      Function.update hub.session conn (some session) other = some found → valid found := by
    intro conn session other found hsession hfound
    by_cases hother : other = conn
    · rw [hother, Function.update_self] at hfound
      exact Option.some.inj hfound ▸ hsession
    · rw [Function.update_of_ne hother] at hfound
      exact hvalid other found hfound
  cases event with
  | opened conn =>
      by_cases hclosed : hub.session conn = none
      · obtain rfl := Prod.mk.inj (Option.some.inj
          ((explains_opened hclosed).symm.trans hexplains)) |>.1
        refine ⟨fun other session => hupdate conn _ other session hsimulates.opening_valid, twin,
          hrelation, ?_⟩
        rw [hsimulates.opening_eq]
        exact explains_opened hclosed
      · simp [Explains, Traffic.deal, run, Service.deal, hclosed] at hexplains
  | sent conn bytes =>
      obtain rfl := Prod.mk.inj (Option.some.inj hexplains) |>.1
      exact ⟨hvalid, twin, hrelation, explains_sent bytes⟩
  | closed conn =>
      by_cases hclosed : hub.session conn = none
      · simp [Explains, Traffic.deal, run, Service.deal, hclosed] at hexplains
      · obtain rfl := Prod.mk.inj (Option.some.inj
          ((explains_closed hclosed).symm.trans hexplains)) |>.1
        refine ⟨fun other session hsession => ?_, twin, hrelation, explains_closed hclosed⟩
        by_cases hother : other = conn
        · simp [hother] at hsession
        · exact hvalid other session (by simpa [Function.update_of_ne hother] using hsession)
  | served conn request reply =>
      cases hopen : hub.session conn with
      | none => simp [Explains, Traffic.deal, run, Service.deal, hopen] at hexplains
      | some session =>
          cases hserve : concrete.serve hub.store session request with
          | none => simp [Explains, Traffic.deal, run, Service.deal, hopen, hserve] at hexplains
          | some served =>
              obtain ⟨after, next, answer⟩ := served
              obtain ⟨hfinal, hanswer⟩ : Hub.mk after
                  (Function.update hub.session conn (some next)) = final ∧ answer = reply := by
                simpa [Explains, Traffic.deal, Traffic.answer, run, Service.deal, hopen, hserve]
                  using hexplains
              obtain ⟨hnext, twinAfter, hafter, htwin⟩ := hsimulates.serve_eq _ _ _ _ _ _ _
                hrelation (hvalid conn session hopen) (hadmitted conn request reply rfl) hserve
              subst hfinal hanswer
              exact ⟨fun other found => hupdate conn next other found hnext, twinAfter, hafter,
                explains_served hopen htwin⟩

/-- Traffic that the concrete service explains is explained by the abstract one. -/
theorem Simulates.explains (hsimulates : Simulates concrete abstract view relation valid admitted)
    {traffic : List (Traffic C Q B)} {twin : T} (hrelation : relation hub.store twin)
    (hvalid : ∀ conn session, hub.session conn = some session → valid session)
    (hadmitted : ∀ conn request reply, .served conn request reply ∈ traffic → admitted request)
    (hexplains : Explains concrete id hub traffic final) :
    ∃ twinFinal, relation final.store twinFinal ∧
      Explains abstract view { store := twin, session := hub.session } traffic
        { store := twinFinal, session := final.session } := by
  induction traffic generalizing hub twin with
  | nil =>
      obtain rfl := Prod.mk.inj (Option.some.inj hexplains) |>.1
      exact ⟨twin, hrelation, explains_nil⟩
  | cons event traffic ih =>
      obtain ⟨middle, hfirst, hrest⟩ := hexplains.head
      obtain ⟨hmiddle, twinMiddle, hrelated, htwin⟩ := hsimulates.step hrelation hvalid
        (fun conn request reply hevent => hadmitted conn request reply (hevent ▸ mem_cons_self))
        hfirst
      obtain ⟨twinFinal, hfinal, hexplained⟩ := ih hrelated hmiddle
        (fun conn request reply hmem => hadmitted conn request reply (mem_cons_of_mem _ hmem)) hrest
      exact ⟨twinFinal, hfinal, htwin.append hexplained⟩

end Simulation

end Deals

/-! ## Replies on their way -/

/-- A reply and the parts of it that have been sent. -/
structure Exchange (B : Type*) where
  reply : List B
  sent : List (List B)
  deriving DecidableEq

/-- One send was made for the reply. -/
def Exchange.Done (fits : List B → List B → Prop) (exchange : Exchange B) : Prop :=
  ∃ bytes, exchange.sent = [bytes] ∧ fits exchange.reply bytes

/-- Every reply was sent before the next one was made, except for the last one if it is the
given one. -/
inductive InTurn (fits : List B → List B → Prop) : Option (List B) → List (Exchange B) → Prop
  | idle {exchanges : List (Exchange B)} (hdone : ∀ exchange ∈ exchanges, exchange.Done fits) :
      InTurn fits none exchanges
  | waiting {exchanges : List (Exchange B)} (hdone : ∀ exchange ∈ exchanges, exchange.Done fits)
      (reply : List B) : InTurn fits (some reply) (exchanges ++ [⟨reply, []⟩])

/-- What is sent of a reply are its first bytes. -/
abbrev Orderly : Option (List B) → List (Exchange B) → Prop :=
  InTurn fun reply bytes => bytes <+: reply

/-- One more part of the last reply is sent. -/
def sendMore (bytes : List B) (exchanges : List (Exchange B)) : List (Exchange B) :=
  exchanges.modifyLast fun exchange => { exchange with sent := exchange.sent ++ [bytes] }

section Turns

variable {fits : List B → List B → Prop} {exchanges : List (Exchange B)}

theorem inTurn_nil : InTurn fits none [] :=
  .idle (by simp)

theorem InTurn.serve (hturn : InTurn fits none exchanges) (reply : List B) :
    InTurn fits (some reply) (exchanges ++ [⟨reply, []⟩]) := by
  cases hturn with
  | idle hdone => exact .waiting hdone reply

theorem InTurn.send {reply bytes : List B} (hturn : InTurn fits (some reply) exchanges)
    (hfits : fits reply bytes) : InTurn fits none (sendMore bytes exchanges) := by
  cases hturn with
  | waiting hdone =>
      rw [sendMore, modifyLast_concat]
      refine .idle fun exchange hexchange => ?_
      rcases mem_append.1 hexchange with hbefore | hlast
      · exact hdone exchange hbefore
      · rw [mem_singleton.1 hlast]
        exact ⟨bytes, rfl, hfits⟩

end Turns

section Exchanges

variable [DecidableEq C]

/-- What an event makes of the exchanges on a connection since it was opened. -/
def noteTraffic (conn : C) (exchanges : List (Exchange B)) :
    Traffic C Q B → List (Exchange B)
  | .opened other => if other = conn then [] else exchanges
  | .served other _ reply => if other = conn then exchanges ++ [⟨reply, []⟩] else exchanges
  | .sent other bytes => if other = conn then sendMore bytes exchanges else exchanges
  | .closed _ => exchanges

def exchangesOn (conn : C) (traffic : List (Traffic C Q B)) : List (Exchange B) :=
  traffic.foldl (noteTraffic conn) []

theorem exchangesOn_snoc (conn : C) (traffic : List (Traffic C Q B)) (event : Traffic C Q B) :
    exchangesOn conn (traffic ++ [event]) = noteTraffic conn (exchangesOn conn traffic) event := by
  simp [exchangesOn]

end Exchanges

end LiteMultiKV.Sessions
