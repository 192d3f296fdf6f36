import Mathlib.Data.List.Perm.Basic
import Ydbgo.Proto.ClientRight

/-! # Runs of the client

Every step keeps the invariant as long as the ids last. In a run a call that returns a response
returns the answer to its own request, each request is handled at most once, no party waits for
room in a channel, and a call that still waits is not forgotten unless the client was closed.
-/

namespace Ydbgo.Proto

namespace System

variable {x y : System}

/-! ### The step of a call that sends -/

theorem Stream.held_arrive (st : Stream) (qs : List Request) :
    Stream.held { st with requests := st.requests ++ qs } |>.Perm (qs ++ st.held) := by
  simp only [Stream.held, List.append_assoc]
  exact List.perm_append_comm_assoc ..

/-- The state a call leaves when it gives the lock back. -/
def dispatched (x : System) (s : ℕ) (q : Request) (arrives : Bool) (stream : Option ℕ)
    (pending : Option (SortedMap ℕ ℕ)) (c : Call) : System :=
  record { ({ x with id := q.id }).arrive s q arrives with stream := stream, pending := pending } c

theorem Inv.dispatched (h : x.Inv) {s : ℕ} {q : Request} {arrives : Bool} {stream : Option ℕ}
    {pending : Option (SortedMap ℕ ℕ)} {c : Call} (hid : x.id < q.id) (hsql : q.sql = c.sql)
    (hc : c.sent = some (s, q)) (hstatus : ∀ r, c.status ≠ .returned (.response r))
    (hsome : stream.isSome → pending.isSome)
    (hpending : ∀ id n, (pending.bind fun p => p.get id) = some n →
      (id = q.id ∧ n = x.ncalls) ∨ x.pendingOf id = some n) :
    (x.dispatched s q arrives stream pending c).Inv := by
  obtain ⟨hsending, hreceiving, hchannels⟩ := h
  have hcalls (n : ℕ) : (x.dispatched s q arrives stream pending c).calls n =
      if n = x.ncalls then some c else x.calls n := Function.update_apply ..
  have hstreams (s' : ℕ) : (x.dispatched s q arrives stream pending c).streams s' =
      if s' = s then { x.streams s with
        requests := (x.streams s).requests ++ if arrives then [q] else [] } else x.streams s' :=
    Function.update_apply ..
  have hsent (n s' : ℕ) (q' : Request) :
      (x.dispatched s q arrives stream pending c).Sent n s' q' ↔
        (n = x.ncalls ∧ s' = s ∧ q' = q) ∨ x.Sent n s' q' := by
    have hnew := hsending.fresh _ le_rfl
    rw [Sent, hcalls]
    by_cases hn : n = x.ncalls
    · subst hn
      simp [hc, Sent, hnew, eq_comm]
    · simp [hn, Sent]
  have hold {n s' : ℕ} {q' : Request} (hs : x.Sent n s' q') :
      (x.dispatched s q arrives stream pending c).Sent n s' q' := (hsent _ _ _).mpr (.inr hs)
  have hanswered (s' : ℕ) : ((x.dispatched s q arrives stream pending c).streams s').answered =
      (x.streams s').answered := by
    rw [hstreams]
    split
    · subst s'
      rfl
    · rfl
  have hresponses (s' : ℕ) : ((x.dispatched s q arrives stream pending c).streams s').responses =
      (x.streams s').responses := by
    rw [hstreams]
    split
    · subst s'
      rfl
    · rfl
  have hans {n : ℕ} {r : RpcResponse} (ha : x.Answers n r) :
      (x.dispatched s q arrives stream pending c).Answers n r :=
    ha.mono (fun _ _ _ => hold) fun s' e he => hanswered s' ▸ he
  have hheld (s' : ℕ) : ((x.dispatched s q arrives stream pending c).streams s').held.Perm
      ((if s' = s ∧ arrives then [q] else []) ++ (x.streams s').held) := by
    rw [hstreams]
    split
    · subst s'
      simpa using Stream.held_arrive (x.streams s) _
    · simp [*]
  have hnewid {n s' : ℕ} {q' : Request} (hs : x.Sent n s' q') : q'.id ≠ q.id :=
    ((hsending.id_le n s' q' hs).trans_lt hid).ne
  refine ⟨?_, ?_, ?_⟩
  · constructor
    · intro n hn
      rw [hcalls, if_neg (show n ≠ x.ncalls from (Nat.lt_of_succ_le hn).ne')]
      exact hsending.fresh n (Nat.le_of_succ_le hn)
    · intro n c' s' q' hc' hs
      rw [hcalls] at hc'
      split at hc'
      · obtain rfl := Option.some.inj hc'
        obtain ⟨-, rfl⟩ := Prod.mk.inj (Option.some.inj (hc.symm.trans hs))
        exact hsql
      · exact hsending.sql n c' s' q' hc' hs
    · intro n s' q' hs
      rcases (hsent _ _ _).mp hs with ⟨-, -, rfl⟩ | hs
      · exact le_rfl
      · exact (hsending.id_le n s' q' hs).trans hid.le
    · intro n₁ n₂ s₁ s₂ q₁ q₂ hs₁ hs₂ hq
      rcases (hsent _ _ _).mp hs₁ with ⟨hn₁, -, hq₁⟩ | hold₁ <;>
        rcases (hsent _ _ _).mp hs₂ with ⟨hn₂, -, hq₂⟩ | hold₂
      · exact hn₁.trans hn₂.symm
      · exact absurd (hq.symm.trans (congrArg Request.id hq₁)) (hnewid hold₂)
      · exact absurd (hq.trans (congrArg Request.id hq₂)) (hnewid hold₁)
      · exact hsending.unique n₁ n₂ s₁ s₂ q₁ q₂ hold₁ hold₂ hq
    · intro s' q' hq'
      rcases List.mem_append.mp ((hheld s').mem_iff.mp hq') with hq' | hq'
      · split at hq'
        · rename_i hs'
          obtain rfl := List.mem_singleton.mp hq'
          exact ⟨x.ncalls, (hsent _ _ _).mpr (.inl ⟨rfl, hs'.1, rfl⟩)⟩
        · cases hq'
      · exact (hsending.held s' q' hq').imp fun _ => hold
    · intro s'
      refine ((hheld s').map Request.id).nodup_iff.mpr ?_
      split
      · rw [List.singleton_append, List.map_cons, List.nodup_cons]
        refine ⟨?_, hsending.once s'⟩
        intro hmem
        obtain ⟨q', hq', heq⟩ := List.mem_map.mp hmem
        obtain ⟨n, hs⟩ := hsending.held s' q' hq'
        exact hnewid hs heq
      · exact hsending.once s'
    · intro s' q' r hq'
      exact hsending.answered_id s' q' r (hanswered s' ▸ hq')
  · constructor
    · intro s' r hr
      exact (hreceiving.responses s' r (hresponses s' ▸ hr)).imp fun _ => hans
    · exact fun k s' r hk => (hreceiving.received k s' r hk).imp fun _ => hans
    · exact fun k s' r n hk => hans (hreceiving.delivering k s' r n hk)
    · exact fun n r hr => hans (hreceiving.chans n r hr)
    · intro n c' r hc' hr
      rw [hcalls] at hc'
      split at hc'
      · obtain rfl := Option.some.inj hc'
        exact absurd hr (hstatus r)
      · exact (hreceiving.returned n c' r hc' hr).imp fun _ h => ⟨hans h.1, h.2⟩
  · have hfree (n : ℕ) (hn : x.ncalls ≤ n) (k s' : ℕ) (r : RpcResponse) :
        x.readers k ≠ .delivering s' r n := by
      intro hk
      obtain ⟨_, _, _, hs, -⟩ := hreceiving.delivering k s' r n hk
      exact absurd (hs.lt_ncalls hsending) (not_lt.mpr hn)
    constructor
    · exact hsome
    · exact fun n hn => hchannels.fresh n (Nat.le_of_succ_le hn)
    · intro id n hidn
      rcases hpending id n hidn with ⟨-, rfl⟩ | hidn
      · exact hchannels.fresh _ le_rfl
      · exact hchannels.empty id n hidn
    · intro id n hidn
      rcases hpending id n hidn with ⟨rfl, rfl⟩ | hidn
      · exact ⟨s, q, (hsent _ _ _).mpr (.inl ⟨rfl, rfl, rfl⟩), rfl⟩
      · obtain ⟨s', q', hs, hq'⟩ := hchannels.sent id n hidn
        exact ⟨s', q', hold hs, hq'⟩
    · intro id n k s' r hidn
      rcases hpending id n hidn with ⟨-, rfl⟩ | hidn
      · exact hfree _ le_rfl k s' r
      · exact hchannels.apart id n k s' r hidn
    · exact hchannels.room
    · exact hchannels.single

theorem Inv.ensureStream (h : x.Inv) {opens : Bool} {s : ℕ}
    (hopen : x.ensureStream opens = some (y, s)) :
    y.Inv ∧ y.pending.isSome ∧ y.id = x.id ∧ y.stream = some s := by
  unfold System.ensureStream at hopen
  split at hopen
  · rename_i s' hs'
    obtain ⟨rfl, rfl⟩ := Prod.mk.inj (Option.some.inj hopen)
    exact ⟨h, h.channels.pending_isSome (by rw [hs']; rfl), rfl, hs'⟩
  · split at hopen
    · obtain ⟨rfl, rfl⟩ := Prod.mk.inj (Option.some.inj hopen)
      refine ⟨?_, rfl, rfl, rfl⟩
      have hforget : Inv { x with
          stream := some x.opened
          pending := some (x.pending.getD .empty) } := by
        refine h.forget (fun _ => rfl) fun id n hid => ?_
        rw [pendingOf]
        cases hp : x.pending with
        | none =>
          rw [hp] at hid
          cases hid
        | some p =>
          rw [hp] at hid
          exact hid
      obtain ⟨hsending, hreceiving, hchannels⟩ := hforget.freeReader x.opened (.inl rfl)
      exact ⟨{ hsending with }, { hreceiving with }, { hchannels with }⟩
    · cases hopen

theorem Inv.execute (h : x.Inv) (hid : x.id + 1 < idSize) {sql : Bytes}
    {opens sends arrives : Bool} (hy : x.execute sql opens sends arrives = .next y) :
    y.Inv ∧ y.id ≤ x.id + 1 := by
  unfold System.execute at hy
  split at hy
  · obtain rfl := Outcome.next.inj hy
    exact ⟨h.refused sql, Nat.le_succ _⟩
  · rename_i z s hopen
    obtain ⟨hz, hsome, hzid, -⟩ := h.ensureStream hopen
    rw [hzid, Nat.mod_eq_of_lt hid] at hy
    split at hy
    · cases hy
    · rename_i pending hpending
      have hlt : z.id < x.id + 1 := hzid ▸ Nat.lt_succ_self _
      have hget (id : ℕ) : z.pendingOf id = pending.get id := by rw [pendingOf, hpending]; rfl
      split at hy
      · obtain rfl := Outcome.next.inj hy
        refine ⟨@Inv.dispatched z hz s ⟨x.id + 1, sql⟩ arrives z.stream
          (some (pending.insert (x.id + 1) z.ncalls)) ⟨sql, some (s, ⟨x.id + 1, sql⟩), .waiting⟩
          hlt rfl rfl (fun _ h => by cases h) (fun _ => rfl) ?_, le_rfl⟩
        intro id n hid
        rw [hget]
        simp only [Option.bind_some, SortedMap.get_insert] at hid
        split at hid
        · rename_i heq
          exact .inl ⟨heq.symm, (Option.some.inj hid).symm⟩
        · exact .inr hid
      · obtain rfl := Outcome.next.inj hy
        refine ⟨@Inv.dispatched z hz s ⟨x.id + 1, sql⟩ arrives none
          (some (pending.erase (x.id + 1))) ⟨sql, some (s, ⟨x.id + 1, sql⟩), .returned .failed⟩
          hlt rfl rfl (fun _ h => by cases h) (fun _ => rfl) ?_, le_rfl⟩
        intro id n hid
        rw [hget]
        simp only [Option.bind_some, SortedMap.get_erase] at hid
        split at hid
        · cases hid
        · exact .inr hid

/-! ### The other steps -/

theorem Inv.receive (h : x.Inv) {n : ℕ} (hy : x.receive n = .next y) : y.Inv ∧ y.id = x.id := by
  unfold System.receive at hy
  split at hy
  · rename_i sql sent m ms hc hch
    obtain rfl := Outcome.next.inj hy
    refine ⟨(h.take hch).return_ hc fun resp hresp => ?_, rfl⟩
    cases m with
    | none => cases hresp
    | some r =>
      exact ⟨r, h.receiving.chans n r (hch ▸ List.mem_cons_self), Return.response.inj hresp⟩
  · cases hy

theorem Inv.timeout (h : x.Inv) {n : ℕ} (hy : x.timeout n = .next y) : y.Inv ∧ y.id = x.id := by
  unfold System.timeout at hy
  split at hy
  · rename_i sql sent hc
    obtain rfl := Outcome.next.inj hy
    exact ⟨h.return_ hc (fun _ hresp => by cases hresp), rfl⟩
  · cases hy

theorem Inv.start (h : x.Inv) {k : ℕ} (hy : x.start k = .next y) : y.Inv ∧ y.id = x.id := by
  unfold System.start at hy
  split at hy
  · obtain rfl := Outcome.next.inj hy
    exact ⟨h.freeReader k (.inr (.inr ⟨_, rfl⟩)), rfl⟩
  · cases hy
  · cases hy

theorem Inv.recv (h : x.Inv) {k : ℕ} (hy : x.recv k = .next y) : y.Inv ∧ y.id = x.id := by
  unfold System.recv at hy
  split at hy
  · rename_i s _
    split at hy
    · cases hy
    · rename_i resp rest hs
      obtain rfl := Outcome.next.inj hy
      have hresp (r : RpcResponse) (hr : r ∈ resp :: rest) :
          ∃ n, (x.withStream s { x.streams s with responses := rest }).Answers n r :=
        (h.receiving.responses s r (hs ▸ hr)).imp fun _ ha => ha.withStream fun _ he => he
      have hinv : (x.withStream s { x.streams s with responses := rest }).Inv :=
        h.withStream (.refl _) (fun _ he => he) (fun q r => h.sending.answered_id s q r)
          fun r hr => hresp r (List.mem_cons_of_mem _ hr)
      refine ⟨hinv.withReader ?_ (fun _ _ _ h => by cases h), rfl⟩
      rintro _ _ ⟨⟩
      exact hresp resp List.mem_cons_self
  · cases hy

theorem Inv.recvError (h : x.Inv) {k : ℕ} (hy : x.recvError k = .next y) :
    y.Inv ∧ y.id = x.id := by
  unfold System.recvError at hy
  split at hy
  · rename_i s _
    obtain ⟨z, hz, hinv, ⟨hid, -⟩, -⟩ := h.failAll s
    rw [hz] at hy
    obtain rfl := Outcome.next.inj hy
    exact ⟨hinv.freeReader k (.inr (.inl rfl)), hid⟩
  · cases hy

theorem Inv.lookup (h : x.Inv) {k : ℕ} (hy : x.lookup k = .next y) : y.Inv ∧ y.id = x.id := by
  unfold System.lookup at hy
  split at hy
  · rename_i s resp hk
    split at hy
    · obtain rfl := Outcome.next.inj hy
      exact ⟨h.freeReader k (.inr (.inr ⟨_, rfl⟩)), rfl⟩
    · rename_i ch hch
      obtain rfl := Outcome.next.inj hy
      have hpending : x.pendingOf resp.id = some ch := hch
      obtain ⟨s', q, hs, hq⟩ := h.channels.sent _ _ hpending
      obtain ⟨n, hans⟩ := h.receiving.received k s resp hk
      obtain rfl : n = ch := hans.unique h.sending hs hq
      have hkept (id n' : ℕ) (hid : ((x.pending.map fun pending : SortedMap ℕ ℕ =>
          pending.erase resp.id).bind fun p => p.get id) = some n') :
          id ≠ resp.id ∧ x.pendingOf id = some n' := by
        rw [pendingOf]
        cases hp : x.pending with
        | none =>
          rw [hp] at hid
          cases hid
        | some p =>
          simp only [hp, Option.map_some, Option.bind_some, SortedMap.get_erase] at hid
          split at hid
          · cases hid
          · rename_i hne
            exact ⟨Ne.symm hne, hid⟩
      have hinv : Inv { x with
          pending := x.pending.map fun pending : SortedMap ℕ ℕ => pending.erase resp.id } :=
        h.forget (fun hsome => by simpa using h.channels.pending_isSome hsome)
          fun id n' hid => (hkept id n' hid).2
      refine ⟨hinv.withReader (fun _ _ h => by cases h) ?_, rfl⟩
      rintro _ _ _ ⟨⟩
      refine ⟨hans, h.channels.empty _ _ hpending, ?_, ?_⟩
      · intro id hid
        obtain ⟨hne, hid⟩ := hkept id n hid
        obtain ⟨s'', q', hs', hq'⟩ := h.channels.sent _ _ hid
        exact hne (hq'.symm.trans ((hs'.eq hs).2 ▸ hq))
      · intro k' s'' r' hk'
        exact absurd hk' (h.channels.apart _ _ k' s'' r' hpending)
  · cases hy

theorem Inv.send_eq (h : x.Inv) {k s n : ℕ} {resp : RpcResponse}
    (hk : x.readers k = .delivering s resp n) : send x.chans n (some resp) =
      some (Function.update x.chans n (x.chans n ++ [some resp])) := by
  rw [send, if_pos (by rw [h.channels.room k s resp n hk]; exact Nat.zero_lt_one)]

theorem Inv.deliver (h : x.Inv) {k : ℕ} (hy : x.deliver k = .next y) : y.Inv ∧ y.id = x.id := by
  unfold System.deliver at hy
  split at hy
  · rename_i s resp n hk
    rw [h.send_eq hk] at hy
    obtain rfl := Outcome.next.inj hy
    have hans := h.receiving.delivering k s resp n hk
    have hread := h.freeReader k (.inr (.inr ⟨s, rfl⟩))
    refine ⟨hread.sendTo (hans.lt_ncalls h.sending) ?_ ?_ ?_, rfl⟩
    · rintro r ⟨⟩
      exact hans
    · intro id hid
      exact h.channels.apart id n k s resp hid hk
    · intro k' s'' r hk'
      simp only [System.withReader, Function.update_apply] at hk'
      split at hk'
      · cases hk'
      · rename_i hne
        exact hne (h.channels.single k' k _ _ _ _ n hk' hk)
  · cases hy

theorem Inv.serverRecv (h : x.Inv) {s : ℕ} (hy : x.serverRecv s = .next y) :
    y.Inv ∧ y.id = x.id := by
  unfold System.serverRecv at hy
  split at hy
  · cases hy
  · rename_i q rest hs
    obtain rfl := Outcome.next.inj hy
    refine ⟨h.withStream ?_ (fun _ he => he) (fun q r => h.sending.answered_id s q r) ?_, rfl⟩
    · simp only [Stream.held, hs, List.append_assoc, List.cons_append, List.nil_append]
      rw [← List.append_assoc]
      exact List.perm_middle.trans (by rw [List.append_assoc])
    · intro r hr
      exact (h.receiving.responses s r hr).imp fun _ ha => ha.withStream fun _ he => he

theorem Inv.serverAnswer (h : x.Inv) {s i : ℕ} {ok : Bool} {error : Bytes}
    {result : Option ResultPayload} {sends : Bool}
    (hy : x.serverAnswer s i ok error result sends = .next y) : y.Inv ∧ y.id = x.id := by
  unfold System.serverAnswer at hy
  split at hy
  · cases hy
  · rename_i q hi
    obtain rfl := Outcome.next.inj hy
    have hq : q ∈ (x.streams s).held :=
      List.mem_append_left _ (List.mem_append_right _ (List.mem_of_getElem? hi))
    obtain ⟨n, hs⟩ := h.sending.held s q hq
    refine ⟨h.withStream ?_ ?_ ?_ ?_, rfl⟩
    · have hperm : (q :: (x.streams s).handling.eraseIdx i).Perm (x.streams s).handling := by
        obtain ⟨hlt, rfl⟩ := List.getElem?_eq_some_iff.mp hi
        exact List.getElem_cons_eraseIdx_perm hlt
      simp only [Stream.held, List.map_append, List.map_cons, List.map_nil, List.append_assoc]
      refine List.Perm.append_left _ ?_
      rw [← List.append_assoc]
      refine (List.perm_append_singleton _ _).trans ?_
      exact hperm.append_right _
    · exact fun e he => List.mem_append_left _ he
    · intro q' r hq'
      rcases List.mem_append.mp hq' with hq' | hq'
      · exact h.sending.answered_id s q' r hq'
      · obtain ⟨rfl, rfl⟩ := Prod.mk.inj (List.mem_singleton.mp hq')
        rfl
    · intro r hr
      rcases List.mem_append.mp hr with hr | hr
      · exact (h.receiving.responses s r hr).imp fun _ ha => ha.withStream fun _ he =>
          List.mem_append_left _ he
      · split at hr
        · obtain rfl := List.mem_singleton.mp hr
          refine ⟨n, s, q, _, hs, ?_, rfl, rfl⟩
          simp [System.withStream]
        · cases hr

theorem Inv.step (h : x.Inv) (hid : x.id + 1 < idSize) {a : Act} (hy : x.step a = .next y) :
    y.Inv ∧ y.id ≤ x.id + 1 := by
  have hkept (hinv : y.Inv ∧ y.id = x.id) : y.Inv ∧ y.id ≤ x.id + 1 :=
    ⟨hinv.1, hinv.2.le.trans (Nat.le_succ _)⟩
  cases a with
  | execute sql opens sends arrives => exact h.execute hid hy
  | receive n => exact hkept (h.receive hy)
  | timeout n => exact hkept (h.timeout hy)
  | start k => exact hkept (h.start hy)
  | recv k => exact hkept (h.recv hy)
  | recvError k => exact hkept (h.recvError hy)
  | lookup k => exact hkept (h.lookup hy)
  | deliver k => exact hkept (h.deliver hy)
  | serverRecv s => exact hkept (h.serverRecv hy)
  | serverAnswer s i ok error result sends => exact hkept (h.serverAnswer hy)
  | close =>
    obtain rfl := Outcome.next.inj hy
    exact hkept ⟨h.forget (fun hs => by cases hs) (fun _ _ hid => by cases hid), rfl⟩

end System

end Ydbgo.Proto
