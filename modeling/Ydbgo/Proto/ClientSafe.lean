import Ydbgo.Proto.ClientRuns

/-! # What callers may rely on

A call that returns a response returns the answer to its own request, and each request is handled
at most once. No party waits for room in a channel. A call that still waits is in some party's
hands, unless the client was closed.
-/

namespace Ydbgo.Proto

namespace System

variable {x y : System}

/-! ### Waiting calls -/

/-- Some party still has to do with the call. -/
def Owed (x : System) (n : ℕ) : Prop :=
  (∃ id, x.pendingOf id = some n) ∨ x.chans n ≠ [] ∨ ∃ k s r, x.readers k = .delivering s r n

structure Owing (x : System) : Prop where
  waiting : ∀ n c, x.calls n = some c → c.status = .waiting → x.Owed n
  idle : ∀ k, x.opened ≤ k → x.readers k = .idle

theorem Owing.of (h : x.Owing) (howed : ∀ n, x.Owed n → y.Owed n)
    (hcalls : ∀ n c, y.calls n = some c → c.status = .waiting →
      ∃ c', x.calls n = some c' ∧ c'.status = .waiting)
    (hidle : ∀ k, y.opened ≤ k → y.readers k = .idle) : y.Owing := by
  constructor
  · intro n c hc hstatus
    obtain ⟨c', hc', hstatus'⟩ := hcalls n c hc hstatus
    exact howed n (h.waiting n c' hc' hstatus')
  · exact hidle

theorem Owed.mono {n : ℕ} (h : x.Owed n) (hpending : ∀ id, x.pendingOf id = some n → y.Owed n)
    (hchans : x.chans n ≠ [] → y.chans n ≠ [])
    (hreaders : ∀ k s r, x.readers k = .delivering s r n → y.Owed n) : y.Owed n := by
  rcases h with ⟨id, hid⟩ | hch | ⟨k, s, r, hk⟩
  · exact hpending id hid
  · exact .inr (.inl (hchans hch))
  · exact hreaders k s r hk

/-- A receiver that carries no response moves on. -/
theorem Owed.withReader {n k : ℕ} (h : x.Owed n) (rd : Reader)
    (hk : ∀ s r n, x.readers k ≠ .delivering s r n) : (x.withReader k rd).Owed n := by
  refine h.mono (fun id hid => .inl ⟨id, hid⟩) (fun hch => hch) fun k' s r hk' => ?_
  refine .inr (.inr ⟨k', s, r, (Function.update_of_ne ?_ ..).trans hk'⟩)
  rintro rfl
  exact hk s r n hk'

theorem Owing.withReader (h : x.Owing) {k : ℕ} (rd : Reader) (hlive : x.readers k ≠ .idle)
    (hk : ∀ s r n, x.readers k ≠ .delivering s r n) : (x.withReader k rd).Owing := by
  refine h.of (fun n hn => hn.withReader rd hk) (fun n c hc hs => ⟨c, hc, hs⟩) fun k' hk' => ?_
  refine (Function.update_of_ne ?_ ..).trans (h.idle k' hk')
  rintro rfl
  exact hlive (h.idle k' hk')

theorem Owing.withStream (h : x.Owing) (s : ℕ) (st : Stream) : (x.withStream s st).Owing :=
  ⟨h.waiting, h.idle⟩

/-- A call returns, and what the others wait for is still there. -/
theorem Owing.return_ (h : x.Owing) {n : ℕ} (c : Call) (r : Return)
    {chans : ℕ → List (Option RpcResponse)} (hchans : ∀ n', n' ≠ n → chans n' = x.chans n') :
    (return_ { x with chans := chans } n c r).Owing := by
  constructor
  · intro n' c' hc' hstatus
    simp only [System.return_, Function.update_apply] at hc'
    split at hc'
    · obtain rfl := Option.some.inj hc'
      cases hstatus
    · rename_i hne
      refine (h.waiting n' c' hc' hstatus).mono (fun id hid => .inl ⟨id, hid⟩) ?_
        fun k s r hk => .inr (.inr ⟨k, s, r, hk⟩)
      intro hch
      change chans n' ≠ []
      rwa [hchans n' hne]
  · exact h.idle

theorem Owing.ensureStream (h : x.Owing) {opens : Bool} {s : ℕ}
    (hopen : x.ensureStream opens = some (y, s)) : y.Owing := by
  unfold System.ensureStream at hopen
  split at hopen
  · obtain ⟨rfl, -⟩ := Prod.mk.inj (Option.some.inj hopen)
    exact h
  · split at hopen
    · obtain ⟨rfl, -⟩ := Prod.mk.inj (Option.some.inj hopen)
      refine h.of (fun n hn => ?_) (fun n c hc hs => ⟨c, hc, hs⟩) fun k hk => ?_
      · refine hn.mono (fun id hid => .inl ⟨id, ?_⟩) (fun hch => hch) fun k s r hk => ?_
        · rw [pendingOf] at hid
          cases hp : x.pending with
          | none =>
            rw [hp] at hid
            cases hid
          | some p =>
            rw [hp] at hid
            simp only [pendingOf]
            exact hid
        · refine .inr (.inr ⟨k, s, r, (Function.update_of_ne ?_ ..).trans hk⟩)
          rintro rfl
          rw [h.idle _ le_rfl] at hk
          cases hk
      · have hne : k ≠ x.opened := (Nat.lt_of_succ_le hk).ne'
        exact (Function.update_of_ne hne ..).trans (h.idle k (Nat.le_of_succ_le hk))
    · cases hopen

theorem Owing.dispatched (h : x.Owing) {s : ℕ} {q : Request} {arrives : Bool} {stream : Option ℕ}
    {pending : Option (SortedMap ℕ ℕ)} {c : Call}
    (hold : ∀ id n, x.pendingOf id = some n → (pending.bind fun p => p.get id) = some n)
    (hnew : c.status = .waiting → (pending.bind fun p => p.get q.id) = some x.ncalls) :
    (x.dispatched s q arrives stream pending c).Owing := by
  constructor
  · intro n c' hc' hstatus
    have hcalls : (x.dispatched s q arrives stream pending c).calls n =
      if n = x.ncalls then some c else x.calls n := Function.update_apply ..
    rw [hcalls] at hc'
    split at hc'
    · obtain rfl := Option.some.inj hc'
      subst n
      exact .inl ⟨q.id, hnew hstatus⟩
    · exact (h.waiting n c' hc' hstatus).mono (fun id hid => .inl ⟨id, hold id n hid⟩)
        (fun hch => hch) fun k s r hk => .inr (.inr ⟨k, s, r, hk⟩)
  · exact h.idle

theorem Owing.execute (h : x.Owing) (hinv : x.Inv) (hid : x.id + 1 < idSize) {sql : Bytes}
    {opens sends arrives : Bool} (hy : x.execute sql opens sends arrives = .next y) : y.Owing := by
  unfold System.execute at hy
  split at hy
  · obtain rfl := Outcome.next.inj hy
    refine h.of (fun n hn => hn) (fun n c hc hs => ?_) h.idle
    simp only [System.record, Function.update_apply] at hc
    split at hc
    · obtain rfl := Option.some.inj hc
      cases hs
    · exact ⟨c, hc, hs⟩
  · rename_i z s hopen
    obtain ⟨hz, -, hzid, -⟩ := hinv.ensureStream hopen
    rw [hzid, Nat.mod_eq_of_lt hid] at hy
    split at hy
    · cases hy
    · rename_i pending hpending
      have hne {id n : ℕ} (hidn : z.pendingOf id = some n) : x.id + 1 ≠ id := by
        obtain ⟨s', q, hs, rfl⟩ := hz.channels.sent id n hidn
        have hle := hz.sending.id_le n s' q hs
        omega
      have hget (id : ℕ) : z.pendingOf id = pending.get id := by rw [pendingOf, hpending]; rfl
      split at hy
      · obtain rfl := Outcome.next.inj hy
        refine @Owing.dispatched z (h.ensureStream hopen) s ⟨x.id + 1, sql⟩ arrives z.stream
          (some (pending.insert (x.id + 1) z.ncalls)) ⟨sql, some (s, ⟨x.id + 1, sql⟩), .waiting⟩
          (fun id n hidn => ?_) fun _ => ?_
        · rw [Option.bind_some, SortedMap.get_insert, if_neg (hne hidn), ← hget, hidn]
        · rw [Option.bind_some, SortedMap.get_insert, if_pos rfl]
      · obtain rfl := Outcome.next.inj hy
        refine @Owing.dispatched z (h.ensureStream hopen) s ⟨x.id + 1, sql⟩ arrives none
          (some (pending.erase (x.id + 1))) ⟨sql, some (s, ⟨x.id + 1, sql⟩), .returned .failed⟩
          (fun id n hidn => ?_) fun hs => by cases hs
        rw [Option.bind_some, SortedMap.get_erase, if_neg (hne hidn), ← hget, hidn]

theorem Owing.recvError (h : x.Owing) (hinv : x.Inv) {k : ℕ} (hy : x.recvError k = .next y) :
    y.Owing := by
  unfold System.recvError at hy
  split at hy
  · rename_i s hk
    obtain ⟨z, hz, -, ⟨-, hreaders, hcalls, hopened⟩, hchans, hpending⟩ := hinv.failAll s
    rw [hz] at hy
    obtain rfl := Outcome.next.inj hy
    refine Owing.withReader ?_ _ (by simp [hreaders, hk]) (by simp [hreaders, hk])
    refine h.of (fun n hn => ?_) (hcalls ▸ fun n c hc hs => ⟨c, hc, hs⟩)
      (hopened ▸ hreaders ▸ h.idle)
    exact hn.mono (fun id hid => .inr (.inl (hpending id n hid))) (hchans n)
      fun k s r hk => .inr (.inr ⟨k, s, r, hreaders ▸ hk⟩)
  · cases hy

theorem Owing.lookup (h : x.Owing) {k : ℕ} (hy : x.lookup k = .next y) : y.Owing := by
  unfold System.lookup at hy
  split at hy
  · rename_i s resp hk
    split at hy
    · obtain rfl := Outcome.next.inj hy
      exact h.withReader _ (by simp [hk]) (by simp [hk])
    · rename_i ch hch
      obtain rfl := Outcome.next.inj hy
      refine h.of (fun n hn => ?_) (fun n c hc hs => ⟨c, hc, hs⟩) fun k' hk' => ?_
      · refine hn.mono (fun id hid => ?_) (fun hch => hch) fun k' s' r hk' => ?_
        · by_cases hne : resp.id = id
          · subst hne
            obtain rfl : ch = n := Option.some.inj (hch.symm.trans hid)
            exact .inr (.inr ⟨k, s, resp, Function.update_self ..⟩)
          · refine .inl ⟨id, ?_⟩
            rw [pendingOf] at hid
            simp only [pendingOf, System.withReader]
            cases hp : x.pending with
            | none =>
              rw [hp] at hid
              cases hid
            | some p =>
              rw [hp] at hid
              simpa [SortedMap.get_erase, hne] using hid
        · refine .inr (.inr ⟨k', s', r, (Function.update_of_ne ?_ ..).trans hk'⟩)
          rintro rfl
          rw [hk] at hk'
          cases hk'
      · refine (Function.update_of_ne ?_ ..).trans (h.idle k' hk')
        rintro rfl
        rw [h.idle _ hk'] at hk
        cases hk
  · cases hy

theorem Owing.deliver (h : x.Owing) (hinv : x.Inv) {k : ℕ} (hy : x.deliver k = .next y) :
    y.Owing := by
  unfold System.deliver at hy
  split at hy
  · rename_i s resp n hk
    rw [hinv.send_eq hk] at hy
    obtain rfl := Outcome.next.inj hy
    have hchans (n' : ℕ) : (Function.update x.chans n (x.chans n ++ [some resp])) n' =
        if n' = n then x.chans n ++ [some resp] else x.chans n' := Function.update_apply ..
    refine h.of (fun n' hn' => ?_) (fun n c hc hs => ⟨c, hc, hs⟩) fun k' hk' => ?_
    · refine hn'.mono (fun id hid => .inl ⟨id, hid⟩) (fun hch => ?_) fun k' s' r hk' => ?_
      · change Function.update x.chans n (x.chans n ++ [some resp]) n' ≠ []
        rw [hchans]
        split
        · simp
        · exact hch
      · by_cases hkk : k' = k
        · subst hkk
          obtain ⟨-, -, rfl⟩ : s = s' ∧ resp = r ∧ n = n' := by simpa using hk.symm.trans hk'
          exact .inr (.inl (by simp [System.withReader]))
        · exact .inr (.inr ⟨k', s', r, (Function.update_of_ne hkk ..).trans hk'⟩)
    · refine (Function.update_of_ne ?_ ..).trans (h.idle k' hk')
      rintro rfl
      rw [h.idle _ hk'] at hk
      cases hk
  · cases hy

theorem Owing.step (h : x.Owing) (hinv : x.Inv) (hid : x.id + 1 < idSize) {a : Act}
    (ha : a ≠ .close) (hy : x.step a = .next y) : y.Owing := by
  cases a with
  | execute sql opens sends arrives => exact h.execute hinv hid hy
  | receive n =>
    simp only [System.step, System.receive] at hy
    split at hy
    · obtain rfl := Outcome.next.inj hy
      exact h.return_ _ _ fun n' hne => Function.update_of_ne hne ..
    · cases hy
  | timeout n =>
    simp only [System.step, System.timeout] at hy
    split at hy
    · obtain rfl := Outcome.next.inj hy
      exact h.return_ _ _ fun _ _ => rfl
    · cases hy
  | start k =>
    simp only [System.step, System.start] at hy
    split at hy
    · rename_i hk _
      obtain rfl := Outcome.next.inj hy
      exact h.withReader _ (by simp [hk]) (by simp [hk])
    · cases hy
    · cases hy
  | recv k =>
    simp only [System.step, System.recv] at hy
    split at hy
    · rename_i s hk
      split at hy
      · cases hy
      · obtain rfl := Outcome.next.inj hy
        exact (h.withStream s _).withReader _ (by simp [System.withStream, hk])
          (by simp [System.withStream, hk])
    · cases hy
  | recvError k => exact h.recvError hinv hy
  | lookup k => exact h.lookup hy
  | deliver k => exact h.deliver hinv hy
  | serverRecv s =>
    simp only [System.step, System.serverRecv] at hy
    split at hy
    · cases hy
    · obtain rfl := Outcome.next.inj hy
      exact h.withStream s _
  | serverAnswer s i ok error result sends =>
    simp only [System.step, System.serverAnswer] at hy
    split at hy
    · cases hy
    · obtain rfl := Outcome.next.inj hy
      exact h.withStream s _
  | close => exact absurd rfl ha

/-! ### Steps that fail -/

theorem Inv.execute_next (h : x.Inv) (sql : Bytes) (opens sends arrives : Bool) :
    ∃ y, x.execute sql opens sends arrives = .next y := by
  unfold System.execute
  split
  · exact ⟨_, rfl⟩
  · rename_i z s hopen
    obtain ⟨-, hsome, -⟩ := h.ensureStream hopen
    split
    · rename_i hnone
      rw [hnone] at hsome
      cases hsome
    · split
      · exact ⟨_, rfl⟩
      · exact ⟨_, rfl⟩

theorem Inv.recvError_ne (h : x.Inv) (k : ℕ) :
    x.recvError k ≠ .blocked ∧ x.recvError k ≠ .panicked := by
  unfold System.recvError
  split
  · rename_i s _
    obtain ⟨z, hz, -⟩ := h.failAll s
    rw [hz]
    constructor <;> rintro ⟨⟩
  · constructor <;> rintro ⟨⟩

theorem Inv.deliver_ne (h : x.Inv) (k : ℕ) :
    x.deliver k ≠ .blocked ∧ x.deliver k ≠ .panicked := by
  unfold System.deliver
  split
  · rename_i hk
    rw [h.send_eq hk]
    constructor <;> rintro ⟨⟩
  · constructor <;> rintro ⟨⟩

theorem start_eq_panicked {k : ℕ} :
    x.start k = .panicked ↔ x.readers k = .started ∧ x.stream = none := by
  unfold System.start
  split
  · rename_i hs
    simp [hs]
  · rename_i hk hs
    simp [hk, hs]
  · rename_i h₁ h₂
    constructor
    · rintro ⟨⟩
    · rintro ⟨hk, hs⟩
      exact absurd hs (h₂ hk)

/-- No step waits for room, and the only one that panics is a receiver's start. -/
theorem Inv.step_ne (h : x.Inv) (a : Act) : x.step a ≠ .blocked ∧
    (x.step a = .panicked ↔ ∃ k, a = .start k ∧ x.readers k = .started ∧ x.stream = none) := by
  have hfine (hstart : ∀ k, a ≠ .start k)
      (hne : x.step a ≠ .blocked ∧ x.step a ≠ .panicked) : x.step a ≠ .blocked ∧
        (x.step a = .panicked ↔ ∃ k, a = .start k ∧ x.readers k = .started ∧ x.stream = none) :=
    ⟨hne.1, fun hp => absurd hp hne.2, fun ⟨k, ha, _⟩ => absurd ha (hstart k)⟩
  cases a with
  | execute sql opens sends arrives =>
    obtain ⟨y, hy⟩ := h.execute_next sql opens sends arrives
    exact hfine (fun _ ha => by cases ha) (by simp [System.step, hy])
  | receive n =>
    refine hfine (fun _ ha => by cases ha) ?_
    simp only [System.step, System.receive]
    split <;> simp
  | timeout n =>
    refine hfine (fun _ ha => by cases ha) ?_
    simp only [System.step, System.timeout]
    split <;> simp
  | start k =>
    constructor
    · simp only [System.step, System.start]
      split <;> simp
    · refine start_eq_panicked.trans ⟨fun hk => ⟨k, rfl, hk⟩, ?_⟩
      rintro ⟨k', ⟨⟩, hk⟩
      exact hk
  | recv k =>
    refine hfine (fun _ ha => by cases ha) ?_
    simp only [System.step, System.recv]
    split
    · split <;> simp
    · simp
  | recvError k => exact hfine (fun _ ha => by cases ha) (h.recvError_ne k)
  | lookup k =>
    refine hfine (fun _ ha => by cases ha) ?_
    simp only [System.step, System.lookup]
    split
    · split <;> simp
    · simp
  | deliver k => exact hfine (fun _ ha => by cases ha) (h.deliver_ne k)
  | serverRecv s =>
    refine hfine (fun _ ha => by cases ha) ?_
    simp only [System.step, System.serverRecv]
    split <;> simp
  | serverAnswer s i ok error result sends =>
    refine hfine (fun _ ha => by cases ha) ?_
    simp only [System.step, System.serverAnswer]
    split <;> simp
  | close => exact hfine (fun _ ha => by cases ha) (by simp [System.step])

/-! ### Runs -/

theorem Inv.initial : Inv {} := by
  constructor
  · constructor
    · exact fun _ _ => rfl
    · exact fun n c s q hc => by cases hc
    · exact fun n s q ⟨c, hc, _⟩ => by cases hc
    · exact fun n n' s s' q q' ⟨c, hc, _⟩ => by cases hc
    · exact fun s q hq => by cases hq
    · exact fun s => List.nodup_nil
    · exact fun s q r hq => by cases hq
  · constructor
    · exact fun s r hr => by cases hr
    · exact fun k s r hk => by cases hk
    · exact fun k s r n hk => by cases hk
    · exact fun n r hr => by cases hr
    · exact fun n c r hc => by cases hc
  · constructor
    · exact fun h => by cases h
    · exact fun _ _ => rfl
    · exact fun id n hid => by cases hid
    · exact fun id n hid => by cases hid
    · exact fun id n k s r hid => by cases hid
    · exact fun k s r n hk => by cases hk
    · exact fun k k' s s' r r' n hk => by cases hk

/-- What holds of the answers given so far, and of the calls that have returned. -/
structure Agreement (x : System) : Prop where
  own : ∀ n c r, x.calls n = some c → c.status = .returned (.response r) →
    ∃ s q, c.sent = some (s, q) ∧ q.sql = c.sql ∧ (q, r) ∈ (x.streams s).answered
  distinct : ∀ n n' c c' s s' q q', x.calls n = some c → x.calls n' = some c' →
    c.sent = some (s, q) → c'.sent = some (s', q') → q.id = q'.id → n = n'
  asked : ∀ s q r, (q, r) ∈ (x.streams s).answered → ∃ n c, x.calls n = some c ∧
    c.sent = some (s, q)
  once : ∀ s, ((x.streams s).answered.map fun e => e.1.id).Nodup
  apart : ∀ s s' q q' r r', (q, r) ∈ (x.streams s).answered → (q', r') ∈ (x.streams s').answered →
    q.id = q'.id → s = s'

theorem Inv.agreement (h : x.Inv) : x.Agreement := by
  have hasked {s : ℕ} {q : Request} {r : Response} (hq : (q, r) ∈ (x.streams s).answered) :
      ∃ n, x.Sent n s q :=
    h.sending.held s q (List.mem_append_right _ (List.mem_map.mpr ⟨(q, r), hq, rfl⟩))
  constructor
  · intro n c r hc hr
    obtain ⟨r', ⟨s, q, resp, ⟨c', hc', hs⟩, hmem, rfl, -⟩, rfl⟩ :=
      h.receiving.returned n c r hc hr
    obtain rfl : c = c' := Option.some.inj (hc.symm.trans hc')
    rw [toProtoResponse_toRPCResponse]
    exact ⟨s, q, hs, h.sending.sql n c s q hc hs, hmem⟩
  · intro n n' c c' s s' q q' hc hc' hs hs' hq
    exact h.sending.unique n n' s s' q q' ⟨c, hc, hs⟩ ⟨c', hc', hs'⟩ hq
  · exact fun s q r hq => hasked hq
  · intro s
    have honce := h.sending.once s
    rw [Stream.held, List.map_append, List.map_map] at honce
    exact honce.of_append_right
  · intro s s' q q' r r' hq hq' hid
    obtain ⟨n, hs⟩ := hasked hq
    obtain ⟨n', hs'⟩ := hasked hq'
    obtain rfl := h.sending.unique _ _ _ _ _ _ hs hs' hid
    exact (hs.eq hs').1

end System

open Ydbgo.Proto.System

variable {acts : List Act} {x : System}

theorem Runs.inv (h : Runs acts x) (hlen : acts.length < idSize) :
    x.Inv ∧ x.id ≤ acts.length := by
  induction h with
  | start => exact ⟨.initial, Nat.zero_le _⟩
  | step hrun hy ih =>
    rw [List.length_append, List.length_singleton] at hlen ⊢
    obtain ⟨hinv, hid⟩ := ih (Nat.lt_of_succ_lt hlen)
    obtain ⟨hinv', hid'⟩ := hinv.step (by omega) hy
    exact ⟨hinv', by omega⟩

theorem Runs.owing (h : Runs acts x) (hlen : acts.length < idSize) (hclose : .close ∉ acts) :
    x.Owing := by
  induction h with
  | start => exact ⟨fun n c hc => (by cases hc), fun _ _ => rfl⟩
  | @step acts x y a hrun hy ih =>
    rw [List.length_append, List.length_singleton] at hlen
    rw [List.mem_append, not_or] at hclose
    obtain ⟨hinv, hid⟩ := hrun.inv (Nat.lt_of_succ_lt hlen)
    exact (ih (Nat.lt_of_succ_lt hlen) hclose.1).step hinv (by omega)
      (fun ha => hclose.2 (ha ▸ List.mem_cons_self)) hy

/-- No party is ever held up by a full channel. The process goes down in one case only: a
receiver starts when the stream it was started for has already been given up. -/
theorem runs_step (h : Runs acts x) (hlen : acts.length < idSize) (a : Act) :
    x.step a ≠ .blocked ∧ (x.step a = .panicked ↔
      ∃ k, a = .start k ∧ x.readers k = .started ∧ x.stream = none) :=
  (h.inv hlen).1.step_ne a

/-- Until the client is closed, some party still has to do with every call that waits. -/
theorem runs_waiting (h : Runs acts x) (hlen : acts.length < idSize) (hclose : .close ∉ acts)
    {n : ℕ} {c : Call} (hc : x.calls n = some c) (hstatus : c.status = .waiting) : x.Owed n :=
  (h.owing hlen hclose).waiting n c hc hstatus

/-! ### A call that is answered -/

def System.run (x : System) : List Act → Option System
  | [] => some x
  | a :: acts =>
    match x.step a with
    | .next y => y.run acts
    | _ => none

theorem Runs.run {acts' : List Act} {x' : System} (h : Runs acts x) (hrun : x.run acts' = some x') :
    Runs (acts ++ acts') x' := by
  induction acts' generalizing acts x with
  | nil =>
    rw [List.append_nil]
    exact Option.some.inj hrun ▸ h
  | cons a acts' ih =>
    rw [System.run] at hrun
    split at hrun
    · rename_i y hy
      rw [List.append_cons]
      exact ih (h.step hy) hrun
    · cases hrun

def callActs : List Act :=
  [.execute [65] true true true, .start 0, .serverRecv 0, .serverAnswer 0 0 true [] none true,
    .recv 0, .lookup 0]

def calling : System := (System.run {} callActs).getD {}

theorem runs_calling : Runs callActs calling := by
  have hsome : (System.run {} callActs).isSome := by decide +kernel
  obtain ⟨x, hx⟩ := Option.isSome_iff_exists.mp hsome
  have hcalling : calling = x := by rw [calling, hx, Option.getD_some]
  exact hcalling ▸ Runs.start.run hx

theorem runs_step_calling : calling.step (.deliver 0) ≠ .blocked ∧ (calling.step (.deliver 0) =
    .panicked ↔ ∃ k, Act.deliver 0 = .start k ∧ calling.readers k = .started ∧
      calling.stream = none) :=
  runs_step runs_calling (by decide) (.deliver 0)

theorem runs_waiting_calling : calling.Owed 0 := by
  have hclose : Act.close ∉ callActs := by simp [callActs]
  exact runs_waiting runs_calling (by decide) hclose rfl rfl

end Ydbgo.Proto
