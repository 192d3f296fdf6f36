import Ydbgo.Proto.Client

/-! # Every call gets its own answer

Ids are never used twice, so that a response in a call's channel answers the request of that call,
whichever stream brought it. A channel that is still to be sent on is empty, and only one party
is about to send on it.
-/

namespace Ydbgo.Proto

/-! ### What the invariant says -/

/-- The requests that have reached the far end of a stream. -/
def Stream.held (st : Stream) : List Request :=
  st.requests ++ st.handling ++ st.answered.map Prod.fst

namespace System

variable {x y : System}

def Sent (x : System) (n s : ℕ) (q : Request) : Prop :=
  ∃ c, x.calls n = some c ∧ c.sent = some (s, q)

/-- The response is a server's answer to the request of the call. -/
def Answers (x : System) (n : ℕ) (r : RpcResponse) : Prop :=
  ∃ s q resp, x.Sent n s q ∧ (q, resp) ∈ (x.streams s).answered ∧ toRPCResponse resp = r ∧
    r.id = q.id

/-- The call whose channel the client keeps for an id. -/
def pendingOf (x : System) (id : ℕ) : Option ℕ := x.pending.bind (·.get id)

structure Sending (x : System) : Prop where
  fresh : ∀ n, x.ncalls ≤ n → x.calls n = none
  sql : ∀ n c s q, x.calls n = some c → c.sent = some (s, q) → q.sql = c.sql
  id_le : ∀ n s q, x.Sent n s q → q.id ≤ x.id
  unique : ∀ n n' s s' q q', x.Sent n s q → x.Sent n' s' q' → q.id = q'.id → n = n'
  held : ∀ s q, q ∈ (x.streams s).held → ∃ n, x.Sent n s q
  once : ∀ s, ((x.streams s).held.map Request.id).Nodup
  answered_id : ∀ s q r, (q, r) ∈ (x.streams s).answered → r.id = q.id

structure Receiving (x : System) : Prop where
  responses : ∀ s r, r ∈ (x.streams s).responses → ∃ n, x.Answers n r
  received : ∀ k s r, x.readers k = .received s r → ∃ n, x.Answers n r
  delivering : ∀ k s r n, x.readers k = .delivering s r n → x.Answers n r
  chans : ∀ n r, some r ∈ x.chans n → x.Answers n r
  returned : ∀ n c r, x.calls n = some c → c.status = .returned (.response r) →
    ∃ r', x.Answers n r' ∧ toProtoResponse r' = r

structure Channels (x : System) : Prop where
  pending_isSome : x.stream.isSome → x.pending.isSome
  fresh : ∀ n, x.ncalls ≤ n → x.chans n = []
  empty : ∀ id n, x.pendingOf id = some n → x.chans n = []
  sent : ∀ id n, x.pendingOf id = some n → ∃ s q, x.Sent n s q ∧ q.id = id
  apart : ∀ id n k s r, x.pendingOf id = some n → x.readers k ≠ .delivering s r n
  room : ∀ k s r n, x.readers k = .delivering s r n → x.chans n = []
  single : ∀ k k' s s' r r' n, x.readers k = .delivering s r n →
    x.readers k' = .delivering s' r' n → k = k'

structure Inv (x : System) : Prop where
  sending : x.Sending
  receiving : x.Receiving
  channels : x.Channels

/-! ### Frames -/

theorem Sent.lt_ncalls (h : x.Sending) {n s : ℕ} {q : Request} (hs : x.Sent n s q) :
    n < x.ncalls := by
  obtain ⟨c, hc, -⟩ := hs
  by_contra hn
  exact absurd ((h.fresh n (not_lt.mp hn)).symm.trans hc) (by simp)

theorem Answers.mono {n : ℕ} {r : RpcResponse} (h : x.Answers n r)
    (hsent : ∀ n s q, x.Sent n s q → y.Sent n s q)
    (hans : ∀ s e, e ∈ (x.streams s).answered → e ∈ (y.streams s).answered) : y.Answers n r := by
  obtain ⟨s, q, resp, hs, hmem, hr, hid⟩ := h
  exact ⟨s, q, resp, hsent _ _ _ hs, hans _ _ hmem, hr, hid⟩

theorem Answers.lt_ncalls (h : x.Sending) {n : ℕ} {r : RpcResponse} (ha : x.Answers n r) :
    n < x.ncalls := by
  obtain ⟨_, _, _, hs, -⟩ := ha
  exact hs.lt_ncalls h

theorem Answers.withStream {n : ℕ} {r : RpcResponse} (h : x.Answers n r) {s : ℕ} {st : Stream}
    (hans : ∀ e, e ∈ (x.streams s).answered → e ∈ st.answered) :
    (x.withStream s st).Answers n r := by
  refine h.mono (fun _ _ _ hs => hs) fun s' e he => ?_
  simp only [System.withStream, Function.update_apply]
  split
  · subst s'
    exact hans e he
  · exact he

theorem Answers.unique (h : x.Sending) {n n' s : ℕ} {q : Request} {r : RpcResponse}
    (ha : x.Answers n r) (hs : x.Sent n' s q) (hid : q.id = r.id) : n = n' := by
  obtain ⟨s', q', resp, hs', -, -, hid'⟩ := ha
  exact h.unique _ _ _ _ _ _ hs' hs (hid'.symm.trans hid.symm)

theorem Sent.eq {n s s' : ℕ} {q q' : Request} (h : x.Sent n s q) (h' : x.Sent n s' q') :
    s = s' ∧ q = q' := by
  obtain ⟨c, hc, hsent⟩ := h
  obtain ⟨c', hc', hsent'⟩ := h'
  obtain rfl : c = c' := Option.some.inj (hc.symm.trans hc')
  exact Prod.mk.inj (Option.some.inj (hsent.symm.trans hsent'))

/-- The pending channels are those of different calls. -/
theorem Channels.nodup (h : x.Channels) {pending : SortedMap ℕ ℕ} (hp : x.pending = some pending) :
    (pending.entries.map Prod.snd).Nodup := by
  have hget {e : ℕ × ℕ} (he : e ∈ pending.entries) : x.pendingOf e.1 = some e.2 := by
    rw [pendingOf, hp]
    exact SortedMap.get_eq_some.mpr he
  refine List.Nodup.map_on ?_ (pending.ascending.imp fun h he => absurd (he ▸ h) (lt_irrefl _))
  rintro ⟨id, n⟩ he ⟨id', n'⟩ he' (rfl : n = n')
  obtain ⟨s, q, hs, rfl⟩ := h.sent _ _ (hget he)
  obtain ⟨s', q', hs', rfl⟩ := h.sent _ _ (hget he')
  rw [(hs.eq hs').2]

/-! ### Steps that leave the calls alone -/

/-- The client lets go of pending calls. -/
theorem Inv.forget (h : x.Inv) {stream : Option ℕ} {pending : Option (SortedMap ℕ ℕ)}
    (hsome : stream.isSome → pending.isSome)
    (hpending : ∀ id n, (pending.bind fun p => p.get id) = some n → x.pendingOf id = some n) :
    Inv { x with stream := stream, pending := pending } := by
  obtain ⟨hsending, hreceiving, hchannels⟩ := h
  constructor
  · exact { hsending with }
  · exact { hreceiving with }
  · exact { hchannels with
      pending_isSome := hsome
      empty := fun id n hid => hchannels.empty id n (hpending id n hid)
      sent := fun id n hid => hchannels.sent id n (hpending id n hid)
      apart := fun id n k s r hid => hchannels.apart id n k s r (hpending id n hid) }

theorem Inv.withReader (h : x.Inv) {k : ℕ} {rd : Reader}
    (hreceived : ∀ s r, rd = .received s r → ∃ n, x.Answers n r)
    (hdelivering : ∀ s r n, rd = .delivering s r n → x.Answers n r ∧ x.chans n = [] ∧
      (∀ id, x.pendingOf id ≠ some n) ∧ ∀ k' s' r', x.readers k' = .delivering s' r' n → k' = k) :
    (x.withReader k rd).Inv := by
  obtain ⟨hsending, hreceiving, hchannels⟩ := h
  have hreaders (k' : ℕ) (rd' : Reader) (hk : (x.withReader k rd).readers k' = rd') :
      (k' = k ∧ rd = rd') ∨ (k' ≠ k ∧ x.readers k' = rd') := by
    simp only [System.withReader, Function.update_apply] at hk
    split at hk
    · exact .inl ⟨‹_›, hk⟩
    · exact .inr ⟨‹_›, hk⟩
  refine ⟨{ hsending with }, { hreceiving with received := ?_, delivering := ?_ },
    { hchannels with apart := ?_, room := ?_, single := ?_ }⟩
  · intro k' s r hk
    rcases hreaders _ _ hk with ⟨-, hk⟩ | ⟨-, hk⟩
    · exact hreceived s r hk
    · exact hreceiving.received k' s r hk
  · intro k' s r n hk
    rcases hreaders _ _ hk with ⟨-, hk⟩ | ⟨-, hk⟩
    · exact (hdelivering s r n hk).1
    · exact hreceiving.delivering k' s r n hk
  · intro id n k' s r hid hk
    rcases hreaders _ _ hk with ⟨-, hk⟩ | ⟨-, hk⟩
    · exact (hdelivering s r n hk).2.2.1 id hid
    · exact hchannels.apart id n k' s r hid hk
  · intro k' s r n hk
    rcases hreaders _ _ hk with ⟨-, hk⟩ | ⟨-, hk⟩
    · exact (hdelivering s r n hk).2.1
    · exact hchannels.room k' s r n hk
  · intro k₁ k₂ s₁ s₂ r₁ r₂ n hk₁ hk₂
    rcases hreaders _ _ hk₁ with ⟨rfl, hr₁⟩ | ⟨hne₁, hr₁⟩ <;>
      rcases hreaders _ _ hk₂ with ⟨hk, hr₂⟩ | ⟨hne₂, hr₂⟩
    · exact hk.symm
    · exact absurd ((hdelivering s₁ r₁ n hr₁).2.2.2 _ _ _ hr₂) hne₂
    · exact absurd (hk ▸ (hdelivering s₂ r₂ n hr₂).2.2.2 _ _ _ hr₁) (hk ▸ hne₁)
    · exact hchannels.single k₁ k₂ s₁ s₂ r₁ r₂ n hr₁ hr₂

/-- A receiver that carries no response. -/
theorem Inv.freeReader (h : x.Inv) (k : ℕ) {rd : Reader}
    (hrd : rd = .started ∨ rd = .done ∨ ∃ s, rd = .reading s) : (x.withReader k rd).Inv := by
  apply h.withReader
  · rintro s r rfl
    rcases hrd with h | h | ⟨_, h⟩ <;> cases h
  · rintro s r n rfl
    rcases hrd with h | h | ⟨_, h⟩ <;> cases h

/-- What a stream holds may be moved about, and answered. -/
theorem Inv.withStream (h : x.Inv) {s : ℕ} {st : Stream} (hheld : st.held.Perm (x.streams s).held)
    (hanswered : ∀ e, e ∈ (x.streams s).answered → e ∈ st.answered)
    (hid : ∀ q r, (q, r) ∈ st.answered → r.id = q.id)
    (hresponses : ∀ r, r ∈ st.responses → ∃ n, (x.withStream s st).Answers n r) :
    (x.withStream s st).Inv := by
  obtain ⟨hsending, hreceiving, hchannels⟩ := h
  have hstreams (s' : ℕ) :
      (x.withStream s st).streams s' = if s' = s then st else x.streams s' :=
    Function.update_apply ..
  have hans {n : ℕ} {r : RpcResponse} (ha : x.Answers n r) : (x.withStream s st).Answers n r :=
    ha.withStream hanswered
  refine ⟨{ hsending with held := ?_, once := ?_, answered_id := ?_ },
    { hreceiving with
      responses := ?_
      received := fun k s' r hk => (hreceiving.received k s' r hk).imp fun _ => hans
      delivering := fun k s' r n hk => hans (hreceiving.delivering k s' r n hk)
      chans := fun n r hr => hans (hreceiving.chans n r hr)
      returned := fun n c r hc hr => (hreceiving.returned n c r hc hr).imp fun _ h =>
        ⟨hans h.1, h.2⟩ },
    { hchannels with }⟩
  · intro s' q hq
    rw [hstreams] at hq
    split at hq
    · subst s'
      exact hsending.held s q (hheld.mem_iff.mp hq)
    · exact hsending.held s' q hq
  · intro s'
    rw [hstreams]
    split
    · exact (hheld.map Request.id).nodup_iff.mpr (hsending.once s)
    · exact hsending.once s'
  · intro s' q r hq
    rw [hstreams] at hq
    split at hq
    · exact hid q r hq
    · exact hsending.answered_id s' q r hq
  · intro s' r hr
    rw [hstreams] at hr
    split at hr
    · exact hresponses r hr
    · exact (hreceiving.responses s' r hr).imp fun _ => hans

/-- A message goes to a channel that nobody else is about to send on. -/
theorem Inv.sendTo (h : x.Inv) {n : ℕ} {m : Option RpcResponse} (hlt : n < x.ncalls)
    (hm : ∀ r, m = some r → x.Answers n r) (hpending : ∀ id, x.pendingOf id ≠ some n)
    (hreaders : ∀ k s r, x.readers k ≠ .delivering s r n) :
    Inv { x with chans := Function.update x.chans n (x.chans n ++ [m]) } := by
  obtain ⟨hsending, hreceiving, hchannels⟩ := h
  refine ⟨{ hsending with }, { hreceiving with chans := ?_ },
    { hchannels with fresh := ?_, empty := ?_, room := ?_ }⟩
  · intro n' r hr
    dsimp only at hr
    rw [Function.update_apply] at hr
    split at hr
    · subst n'
      rcases List.mem_append.mp hr with hr | hr
      · exact hreceiving.chans n r hr
      · exact hm r (List.mem_singleton.mp hr).symm
    · exact hreceiving.chans n' r hr
  · intro n' hn'
    have hne : n' ≠ n := (hlt.trans_le hn').ne'
    exact (Function.update_of_ne hne ..).trans (hchannels.fresh n' hn')
  · intro id n' hid
    refine (Function.update_of_ne ?_ ..).trans (hchannels.empty id n' hid)
    rintro rfl
    exact hpending id hid
  · intro k s r n' hk
    refine (Function.update_of_ne ?_ ..).trans (hchannels.room k s r n' hk)
    rintro rfl
    exact hreaders k s r hk

theorem failPending_eq {es : List (ℕ × ℕ)} (hnodup : (es.map Prod.snd).Nodup)
    {chans : ℕ → List (Option RpcResponse)} (hempty : ∀ e ∈ es, chans e.2 = []) :
    es.foldlM (fun chans e => send chans e.2 none) chans =
      some fun n => if n ∈ es.map Prod.snd then [none] else chans n := by
  induction es generalizing chans with
  | nil => rfl
  | cons e es ih =>
    obtain ⟨hnot, hnodup⟩ := List.nodup_cons.mp hnodup
    have hsend : send chans e.2 none = some (Function.update chans e.2 [none]) := by
      simp [send, hempty e List.mem_cons_self]
    have hrest : ∀ e' ∈ es, Function.update chans e.2 [none] e'.2 = [] := by
      intro e' he'
      refine (Function.update_of_ne ?_ ..).trans (hempty e' (List.mem_cons_of_mem _ he'))
      intro heq
      exact hnot (heq ▸ List.mem_map_of_mem he')
    rw [List.foldlM_cons, hsend, Option.bind_eq_bind, Option.bind_some, ih hnodup hrest]
    congr 1
    ext1 n
    by_cases hn : n = e.2
    · subst hn
      simp [hnot]
    · simp only [List.map_cons, List.mem_cons, hn, false_or, Function.update_of_ne hn]

/-- Whoever waits for a response is told that the stream is gone. -/
theorem Inv.failAll (h : x.Inv) (s : ℕ) : ∃ y, x.failAll s = some y ∧ y.Inv ∧
    (y.id = x.id ∧ y.readers = x.readers ∧ y.calls = x.calls ∧ y.opened = x.opened) ∧
    (∀ n, x.chans n ≠ [] → y.chans n ≠ []) ∧
    ∀ id n, x.pendingOf id = some n → y.chans n ≠ [] := by
  have hstream : (if x.stream = some s then none else x.stream).isSome → x.stream.isSome := by
    split
    · exact fun h => by cases h
    · exact fun h => h
  have hinv : Inv { x with stream := if x.stream = some s then none else x.stream } :=
    h.forget (fun hs => h.channels.pending_isSome (hstream hs)) fun _ _ hid => hid
  cases hp : x.pending with
  | none =>
    refine ⟨_, by simp only [System.failAll, hp], hinv, ⟨rfl, rfl, rfl, rfl⟩,
      fun _ hn => hn, ?_⟩
    intro id n hid
    rw [pendingOf, hp] at hid
    cases hid
  | some pending =>
    have hget {e : ℕ × ℕ} (he : e ∈ pending.entries) : x.pendingOf e.1 = some e.2 := by
      rw [pendingOf, hp]
      exact SortedMap.get_eq_some.mpr he
    have hfail := failPending_eq (h.channels.nodup hp) fun e he => h.channels.empty _ _ (hget he)
    have hmem {n : ℕ} (hn : n ∈ pending.entries.map Prod.snd) : ∃ id, x.pendingOf id = some n := by
      obtain ⟨e, he, rfl⟩ := List.mem_map.mp hn
      exact ⟨e.1, hget he⟩
    have hnone : Inv { x with
        stream := if x.stream = some s then none else x.stream
        pending := some .empty } := h.forget (fun _ => rfl) fun _ _ hid => by cases hid
    refine ⟨{ x with
      stream := if x.stream = some s then none else x.stream
      pending := some .empty
      chans := fun n => if n ∈ pending.entries.map Prod.snd then [none] else x.chans n },
      by simp only [System.failAll, hp, failPending, hfail, Option.map_some], ?_,
      ⟨rfl, rfl, rfl, rfl⟩, ?_, ?_⟩
    · obtain ⟨hsending, hreceiving, hchannels⟩ := hnone
      refine ⟨{ hsending with }, { hreceiving with chans := ?_ },
        { hchannels with fresh := ?_, empty := ?_, room := ?_ }⟩
      · intro n r hr
        dsimp only at hr
        split at hr
        · cases List.mem_singleton.mp hr
        · exact h.receiving.chans n r hr
      · intro n hn
        dsimp only
        rw [if_neg, h.channels.fresh n hn]
        intro hn'
        obtain ⟨id, hid⟩ := hmem hn'
        obtain ⟨s', q, hs, -⟩ := h.channels.sent id n hid
        exact absurd (hs.lt_ncalls h.sending) (not_lt.mpr hn)
      · intro id n hid
        cases hid
      · intro k s' r n hk
        dsimp only
        rw [if_neg, h.channels.room k s' r n hk]
        intro hn'
        obtain ⟨id, hid⟩ := hmem hn'
        exact h.channels.apart id n k s' r hid hk
    · intro n hn
      dsimp only
      split
      · exact List.cons_ne_nil _ _
      · exact hn
    · intro id n hid
      rw [pendingOf, hp] at hid
      have hn : n ∈ pending.entries.map Prod.snd :=
        List.mem_map.mpr ⟨(id, n), SortedMap.get_eq_some.mp hid, rfl⟩
      dsimp only
      rw [if_pos hn]
      exact List.cons_ne_nil _ _

/-! ### Steps of the calls -/

theorem Inv.take (h : x.Inv) {n : ℕ} {m : Option RpcResponse} {ms : List (Option RpcResponse)}
    (hch : x.chans n = m :: ms) : Inv { x with chans := Function.update x.chans n ms } := by
  obtain ⟨hsending, hreceiving, hchannels⟩ := h
  have hof (n' : ℕ) : x.chans n' = [] → Function.update x.chans n ms n' = [] := by
    intro hn'
    refine (Function.update_of_ne ?_ ..).trans hn'
    rintro rfl
    exact absurd (hch.symm.trans hn') (List.cons_ne_nil _ _)
  refine ⟨{ hsending with }, { hreceiving with chans := ?_ },
    { hchannels with
      fresh := fun n' hn' => hof n' (hchannels.fresh n' hn')
      empty := fun id n' hid => hof n' (hchannels.empty id n' hid)
      room := fun k s r n' hk => hof n' (hchannels.room k s r n' hk) }⟩
  intro n' r hr
  dsimp only at hr
  rw [Function.update_apply] at hr
  split at hr
  · subst n'
    exact hreceiving.chans n r (hch ▸ List.mem_cons_of_mem _ hr)
  · exact hreceiving.chans n' r hr

theorem sent_return_ {n : ℕ} {c : Call} (hc : x.calls n = some c) (r : Return) {n' s : ℕ}
    {q : Request} : (x.return_ n c r).Sent n' s q ↔ x.Sent n' s q := by
  simp only [Sent, System.return_, Function.update_apply]
  split
  · subst n'
    simp [hc]
  · rfl

/-- The calls change, but for the requests they have sent. -/
theorem Inv.withCalls (h : x.Inv) {calls : ℕ → Option Call} {ncalls : ℕ} (hle : x.ncalls ≤ ncalls)
    (hsent : ∀ n s q, Sent { x with calls := calls, ncalls := ncalls } n s q ↔ x.Sent n s q)
    (hfresh : ∀ n, ncalls ≤ n → calls n = none)
    (hsql : ∀ n c s q, calls n = some c → c.sent = some (s, q) → q.sql = c.sql)
    (hreturned : ∀ n c r, calls n = some c → c.status = .returned (.response r) →
      ∃ r', x.Answers n r' ∧ toProtoResponse r' = r) :
    Inv { x with calls := calls, ncalls := ncalls } := by
  obtain ⟨hsending, hreceiving, hchannels⟩ := h
  have hans {n : ℕ} {r : RpcResponse} (ha : x.Answers n r) :
      Answers { x with calls := calls, ncalls := ncalls } n r :=
    ha.mono (fun n s q => (hsent n s q).mpr) fun _ _ he => he
  refine ⟨?_, ?_, ?_⟩
  · constructor
    · exact hfresh
    · exact hsql
    · exact fun n s q hs => hsending.id_le n s q ((hsent _ _ _).mp hs)
    · exact fun n₁ n₂ s₁ s₂ q₁ q₂ hs₁ hs₂ =>
        hsending.unique n₁ n₂ s₁ s₂ q₁ q₂ ((hsent _ _ _).mp hs₁) ((hsent _ _ _).mp hs₂)
    · exact fun s q hq => (hsending.held s q hq).imp fun n => (hsent n s q).mpr
    · exact hsending.once
    · exact hsending.answered_id
  · constructor
    · exact fun s r hr => (hreceiving.responses s r hr).imp fun _ => hans
    · exact fun k s r hk => (hreceiving.received k s r hk).imp fun _ => hans
    · exact fun k s r n hk => hans (hreceiving.delivering k s r n hk)
    · exact fun n r hr => hans (hreceiving.chans n r hr)
    · exact fun n c r hc hr => (hreturned n c r hc hr).imp fun _ h => ⟨hans h.1, h.2⟩
  · constructor
    · exact hchannels.pending_isSome
    · exact fun n hn => hchannels.fresh n (hle.trans hn)
    · exact hchannels.empty
    · intro id n hid
      obtain ⟨s, q, hs, hq⟩ := hchannels.sent id n hid
      exact ⟨s, q, (hsent n s q).mpr hs, hq⟩
    · exact hchannels.apart
    · exact hchannels.room
    · exact hchannels.single

theorem Inv.return_ (h : x.Inv) {n : ℕ} {c : Call} {r : Return} (hc : x.calls n = some c)
    (hr : ∀ resp, r = .response resp → ∃ r', x.Answers n r' ∧ toProtoResponse r' = resp) :
    (x.return_ n c r).Inv := by
  have hcalls (n' : ℕ) (c' : Call) (hc' : (x.return_ n c r).calls n' = some c') :
      (n' = n ∧ c' = { c with status := .returned r }) ∨ x.calls n' = some c' := by
    simp only [System.return_, Function.update_apply] at hc'
    split at hc'
    · exact .inl ⟨‹_›, (Option.some.inj hc').symm⟩
    · exact .inr hc'
  refine h.withCalls le_rfl (fun _ _ _ => sent_return_ hc r) ?_ ?_ ?_
  · intro n' hn'
    have hnew := h.sending.fresh n' hn'
    refine (Function.update_of_ne ?_ ..).trans hnew
    rintro rfl
    exact absurd (hc.symm.trans hnew) (by simp)
  · intro n' c' s q hc' hs
    rcases hcalls n' c' hc' with ⟨-, rfl⟩ | hold
    · exact h.sending.sql n c s q hc hs
    · exact h.sending.sql n' c' s q hold hs
  · intro n' c' resp hc' hstatus
    rcases hcalls n' c' hc' with ⟨rfl, rfl⟩ | hold
    · exact hr resp (Status.returned.inj hstatus)
    · exact h.receiving.returned n' c' resp hold hstatus

/-- A call for which no stream could be opened. -/
theorem Inv.refused (h : x.Inv) (sql : Bytes) :
    (x.record ⟨sql, none, .returned .failed⟩).Inv := by
  have hcalls (n : ℕ) (c : Call) (hc : (x.record ⟨sql, none, .returned .failed⟩).calls n = some c) :
      (n = x.ncalls ∧ c = ⟨sql, none, .returned .failed⟩) ∨ (n ≠ x.ncalls ∧ x.calls n = some c) := by
    simp only [System.record, Function.update_apply] at hc
    split at hc
    · exact .inl ⟨‹_›, (Option.some.inj hc).symm⟩
    · exact .inr ⟨‹_›, hc⟩
  refine h.withCalls (Nat.le_succ _) ?_ ?_ ?_ ?_
  · intro n s q
    constructor
    · rintro ⟨c, hc, hs⟩
      rcases hcalls n c hc with ⟨-, rfl⟩ | ⟨-, hold⟩
      · cases hs
      · exact ⟨c, hold, hs⟩
    · intro hs
      have hlt := hs.lt_ncalls h.sending
      obtain ⟨c, hc, hsent⟩ := hs
      exact ⟨c, (Function.update_of_ne hlt.ne ..).trans hc, hsent⟩
  · intro n hn
    have hne : n ≠ x.ncalls := (Nat.lt_of_succ_le hn).ne'
    exact (Function.update_of_ne hne ..).trans (h.sending.fresh n (Nat.le_of_succ_le hn))
  · intro n c s q hc hs
    rcases hcalls n c hc with ⟨-, rfl⟩ | ⟨-, hold⟩
    · cases hs
    · exact h.sending.sql n c s q hold hs
  · intro n c r hc hr
    rcases hcalls n c hc with ⟨-, rfl⟩ | ⟨-, hold⟩
    · cases hr
    · exact h.receiving.returned n c r hold hr

end System

end Ydbgo.Proto
