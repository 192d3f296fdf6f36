import Ydbgo.Sql.Bincodec

/-! # Decoders as trees of reads

A decoder of statements written as the tree of the reads that it makes. It can be
run on a reader, with or without a look at its counts, and its layout says which
bytes it reads without a panic and with no count above the length of the input.
On a cut input it either meets an error, which sticks, or reads what it reads on
the whole.
-/

namespace Ydbgo.Sql

/-- The reads of a decoder, and what it does with each. -/
inductive Layout (α : Type) where
  | done (a : α)
  | byte (next : UInt8 → Layout α)
  | uvarint (next : UInt64 → Layout α)
  | take (n : Int64) (next : Bytes → Layout α)
  | make (n : Int64) (next : Layout α)
  /-- A loop of so many rounds follows. -/
  | loop (n : Int64) (next : Layout α)
  | useErr (next : Option String → Layout α)
  /-- The fuel ran out. -/
  | stuck

namespace Layout

variable {α β : Type}

def bind (t : Layout α) (f : α → Layout β) : Layout β :=
  match t with
  | done a => f a
  | byte next => byte fun b => (next b).bind f
  | uvarint next => uvarint fun v => (next v).bind f
  | take n next => take n fun s => (next s).bind f
  | make n next => make n (next.bind f)
  | loop n next => loop n (next.bind f)
  | useErr next => useErr fun e => (next e).bind f
  | stuck => stuck

instance : Monad Layout where
  pure := done
  bind := bind

/-! ### Running a layout -/

section Run

variable (check : Int64 → Decoder Unit)

/-- The decoder of a layout, with a check of the count of each slice and each loop. -/
def runWith : Layout α → Decoder α
  | done a => pure a
  | byte next => readByte >>= fun b => (next b).runWith
  | uvarint next => readUvarint >>= fun v => (next v).runWith
  | take n next => Sql.take n >>= fun s => (next s).runWith
  | make n next => check n >>= fun _ => Sql.make n >>= fun _ => next.runWith
  | loop n next => check n >>= fun _ => next.runWith
  | useErr next => Sql.useErr >>= fun e => (next e).runWith
  | stuck => fun _ => none

end Run

/-- The decoder of the source, which checks no count. -/
def run (t : Layout α) : Decoder α := t.runWith fun _ => pure ()

/-- A count is between zero and the length of the input. -/
def checkCount (n : Int64) : Decoder Unit := fun r =>
  if 0 ≤ n.toInt ∧ n.toInt ≤ r.buf.length then some ((), r) else none

/-- The decoder that stops at a count that is negative or larger than the input. -/
def checked (t : Layout α) : Decoder α := t.runWith checkCount

/-- Which last bytes of an input of length `n` are read with sound lengths and counts: a length is
not negative and ends below the largest integer, a count is not negative or above `n`, and `make`
allows it. -/
def sound : Layout α → ℕ → Bytes → Bool
  | done _, _, _ => true
  | byte next, n, bs =>
    match bs with
    | [] => true
    | b :: bs => (next b).sound n bs
  | uvarint next, n, bs =>
    match Ydbgo.uvarint bs with
    | none => true
    | some (v, len) => (next v).sound n (bs.drop len)
  | take k next, n, bs =>
    decide (0 ≤ k.toInt ∧ (n - bs.length : ℕ) + k.toInt < 2 ^ 63) &&
      (decide (bs.length < k.toInt.toNat) ||
        (next (bs.take k.toInt.toNat)).sound n (bs.drop k.toInt.toNat))
  | make k next, n, bs =>
    decide (0 ≤ k.toInt ∧ k.toInt ≤ n ∧ 16 * k.toInt ≤ 2 ^ 48) && next.sound n bs
  | loop k next, n, bs => decide (0 ≤ k.toInt ∧ k.toInt ≤ n) && next.sound n bs
  | useErr next, n, bs => (next none).sound n bs
  | stuck, _, _ => true

/-- With zeros for what is read it comes to an end, and its counts are zero. -/
def Calm : Layout α → Prop
  | done _ => True
  | byte next => (next 0).Calm
  | uvarint next => (next 0).Calm
  | take _ next => (next []).Calm
  | make n next => n = 0 ∧ next.Calm
  | loop n next => n = 0 ∧ next.Calm
  | useErr next => ∀ e, (next e).Calm
  | stuck => False

/-- The fuel lasts for `m` bytes, and behind a failed read the layout is calm. -/
def Fueled : Layout α → ℕ → Prop
  | done _, _ => True
  | byte next, m => (next 0).Calm ∧ ∀ b, ∀ k < m, (next b).Fueled k
  | uvarint next, m => (next 0).Calm ∧ ∀ v, ∀ k < m, (next v).Fueled k
  | take _ next, m => (next []).Calm ∧ ∀ s, ∀ k ≤ m, (next s).Fueled k
  | make _ next, m => next.Fueled m
  | loop _ next, m => next.Fueled m
  | useErr next, m => (next none).Fueled m
  | stuck, _ => False

/-- The same reads with more fuel. -/
inductive Below : Layout α → Layout α → Prop
  | done (a : α) : Below (done a) (done a)
  | byte {next next' : UInt8 → Layout α} : (∀ b, Below (next b) (next' b)) →
      Below (byte next) (byte next')
  | uvarint {next next' : UInt64 → Layout α} : (∀ v, Below (next v) (next' v)) →
      Below (uvarint next) (uvarint next')
  | take (n : Int64) {next next' : Bytes → Layout α} : (∀ s, Below (next s) (next' s)) →
      Below (take n next) (take n next')
  | make (n : Int64) {next next' : Layout α} : Below next next' → Below (make n next) (make n next')
  | loop (n : Int64) {next next' : Layout α} : Below next next' → Below (loop n next) (loop n next')
  | useErr {next next' : Option String → Layout α} : (∀ e, Below (next e) (next' e)) →
      Below (useErr next) (useErr next')
  | stuck (t : Layout α) : Below stuck t

/-! ### Sequences -/

@[simp] theorem pure_eq (a : α) : (pure a : Layout α) = done a := rfl

@[simp] theorem done_bind (a : α) (f : α → Layout β) : (done a >>= f) = f a := rfl

variable {t t' : Layout α} {f f' : α → Layout β} {check : Int64 → Decoder Unit}

theorem runWith_bind (t : Layout α) (f : α → Layout β) :
    (t >>= f).runWith check = t.runWith check >>= fun a => (f a).runWith check := by
  induction t with
  | done a => rw [runWith, pure_bind]; rfl
  | byte next ih =>
    change readByte >>= _ = _
    simp only [runWith, bind_assoc]
    exact congrArg _ (funext fun b => ih b)
  | uvarint next ih =>
    change readUvarint >>= _ = _
    simp only [runWith, bind_assoc]
    exact congrArg _ (funext fun v => ih v)
  | take n next ih =>
    change Sql.take n >>= _ = _
    simp only [runWith, bind_assoc]
    exact congrArg _ (funext fun s => ih s)
  | make n next ih =>
    change check n >>= (fun _ => Sql.make n >>= _) = _
    simp only [runWith, bind_assoc]
    exact congrArg _ (funext fun _ => congrArg _ (funext fun _ => ih))
  | loop n next ih =>
    change check n >>= _ = _
    simp only [runWith, bind_assoc]
    exact congrArg _ (funext fun _ => ih)
  | useErr next ih =>
    change Sql.useErr >>= _ = _
    simp only [runWith, bind_assoc]
    exact congrArg _ (funext fun e => ih e)
  | stuck => rfl

theorem Calm.bind (ht : t.Calm) (hf : ∀ a, (f a).Calm) : (t >>= f).Calm := by
  induction t with
  | done a => exact hf a
  | byte next ih => exact ih 0 ht
  | uvarint next ih => exact ih 0 ht
  | take n next ih => exact ih [] ht
  | make n next ih => exact ⟨ht.1, ih ht.2⟩
  | loop n next ih => exact ⟨ht.1, ih ht.2⟩
  | useErr next ih => exact fun e => ih e (ht e)
  | stuck => exact ht

theorem Fueled.mono {m k : ℕ} (ht : t.Fueled m) (h : k ≤ m) : t.Fueled k := by
  induction t generalizing m k with
  | done a => trivial
  | byte next ih => exact ⟨ht.1, fun b j hj => ht.2 b j (hj.trans_le h)⟩
  | uvarint next ih => exact ⟨ht.1, fun v j hj => ht.2 v j (hj.trans_le h)⟩
  | take n next ih => exact ⟨ht.1, fun s j hj => ht.2 s j (hj.trans h)⟩
  | make n next ih => exact ih ht h
  | loop n next ih => exact ih ht h
  | useErr next ih => exact ih none ht h
  | stuck => exact ht

theorem Fueled.bind {m : ℕ} (ht : t.Fueled m) (hcalm : ∀ a, (f a).Calm)
    (hf : ∀ a, (f a).Fueled m) : (t >>= f).Fueled m := by
  induction t generalizing m with
  | done a => exact hf a
  | byte next ih =>
    exact ⟨ht.1.bind hcalm, fun b k hk => ih b (ht.2 b k hk) fun a => (hf a).mono hk.le⟩
  | uvarint next ih =>
    exact ⟨ht.1.bind hcalm, fun v k hk => ih v (ht.2 v k hk) fun a => (hf a).mono hk.le⟩
  | take n next ih =>
    exact ⟨ht.1.bind hcalm, fun s k hk => ih s (ht.2 s k hk) fun a => (hf a).mono hk⟩
  | make n next ih => exact ih ht hf
  | loop n next ih => exact ih ht hf
  | useErr next ih => exact ih none ht hf
  | stuck => exact ht

theorem Below.bind (ht : Below t t') (hf : ∀ a, Below (f a) (f' a)) :
    Below (t >>= f) (t' >>= f') := by
  induction ht with
  | done a => exact hf a
  | byte _ ih => exact .byte fun b => ih b
  | uvarint _ ih => exact .uvarint fun v => ih v
  | take n _ ih => exact .take n fun s => ih s
  | make n _ ih => exact .make n ih
  | loop n _ ih => exact .loop n ih
  | useErr _ ih => exact .useErr fun e => ih e
  | stuck t' => exact .stuck _

/-! ### The reads -/

/-- The reader in front of these last bytes. -/
def before (buf bs : Bytes) : Reader := ⟨buf, buf.length - bs.length, none⟩

theorem run_some {d : Decoder α} {k : α → Decoder β} {r r' : Reader} {a : α}
    (h : d r = some (a, r')) : (d >>= k) r = k a r' := by
  change (d r).bind _ = _
  rw [h]
  rfl

theorem run_none {d : Decoder α} {k : α → Decoder β} {r : Reader} (h : d r = none) :
    (d >>= k) r = none := by
  change (d r).bind _ = _
  rw [h]
  rfl

theorem readByte_failed {r : Reader} (h : r.err.isSome) :
    ∃ r', readByte r = some (0, r') ∧ r'.err.isSome := by
  obtain ⟨e, he⟩ := Option.isSome_iff_exists.mp h
  refine ⟨{ r with err := some "sql: short read" }, ?_, rfl⟩
  rw [readByte, he]

theorem readUvarint_failed {r : Reader} (h : r.err.isSome) :
    ∃ r', readUvarint r = some (0, r') ∧ r'.err.isSome :=
  ⟨r, if_pos h, h⟩

theorem take_failed {r : Reader} (n : Int64) (h : r.err.isSome) :
    ∃ r', Sql.take n r = some ([], r') ∧ r'.err.isSome :=
  ⟨{ r with err := some "sql: short read" }, if_pos (Or.inl h), rfl⟩

/-- `take` with its wrapping sum. -/
theorem take_eq (n : Int64) (r : Reader) : Sql.take n r =
    if r.err.isSome ∨ (r.buf.length : ℤ) < (Int64.ofNat r.pos + n).toInt then
      some ([], { r with err := some "sql: short read" })
    else if (Int64.ofNat r.pos + n).toInt < r.pos then none
    else some ((r.buf.drop r.pos).take ((Int64.ofNat r.pos + n).toInt.toNat - r.pos),
      { r with pos := (Int64.ofNat r.pos + n).toInt.toNat }) := rfl

section Suffix

variable {buf bs : Bytes} (hs : bs <:+ buf)

theorem readByte_nil (buf : Bytes) : ∃ r', readByte (before buf []) = some (0, r') ∧ r'.err.isSome := by
  refine ⟨{ before buf [] with err := some "sql: short read" }, ?_, rfl⟩
  have hnone : buf[(before buf []).pos]? = none := List.getElem?_eq_none (le_refl _)
  simp only [readByte, before, List.length_nil, Nat.sub_zero, List.getElem?_length]

include hs

theorem drop_before : buf.drop (before buf bs).pos = bs := (List.suffix_iff_eq_drop.mp hs).symm

theorem readUvarint_none (h : Ydbgo.uvarint bs = none) :
    ∃ r', readUvarint (before buf bs) = some (0, r') ∧ r'.err.isSome := by
  refine ⟨{ before buf bs with err := some "sql: bad varint" }, ?_, rfl⟩
  have hread : Ydbgo.uvarint ((before buf bs).buf.drop (before buf bs).pos) = none := by
    rwa [show (before buf bs).buf = buf from rfl, drop_before hs]
  rw [readUvarint, if_neg (by exact nofun), hread]

theorem readUvarint_some {v : UInt64} {len : ℕ} (h : Ydbgo.uvarint bs = some (v, len)) :
    readUvarint (before buf bs) = some (v, before buf (bs.drop len)) := by
  have hlen : len ≤ bs.length := uvarint_le h
  have hle := hs.length_le
  have hread : Ydbgo.uvarint ((before buf bs).buf.drop (before buf bs).pos) = some (v, len) := by
    rwa [show (before buf bs).buf = buf from rfl, drop_before hs]
  have hpos : buf.length - bs.length + len = buf.length - (bs.length - len) := by omega
  rw [readUvarint, if_neg (by exact nofun), hread]
  simp only [before, List.length_drop, hpos]

omit hs in
theorem take_unsound (hbuf : buf.length < 2 ^ 63) {n : Int64}
    (h : ¬ (0 ≤ n.toInt ∧ (buf.length - bs.length : ℕ) + n.toInt < 2 ^ 63)) :
    Sql.take n (before buf bs) = none := by
  have hpos : (Int64.ofNat (before buf bs).pos).toInt = (before buf bs).pos :=
    Int64.toInt_ofNat_of_lt (lt_of_le_of_lt (Nat.sub_le _ _) hbuf)
  have hle : (before buf bs).pos ≤ buf.length := Nat.sub_le _ _
  have hn := n.toInt_lt
  have hn' := n.le_toInt
  have hstop : (Int64.ofNat (before buf bs).pos + n).toInt < (before buf bs).pos := by
    change ¬ (_ ∧ ((before buf bs).pos : ℤ) + _ < _) at h
    rw [Int64.toInt_add, hpos, Int.bmod_def]
    omega
  have hnot : ¬ ((before buf bs).err.isSome ∨
      ((before buf bs).buf.length : ℤ) < (Int64.ofNat (before buf bs).pos + n).toInt) := by
    rintro (herr | hlt)
    · cases herr
    · change (buf.length : ℤ) < _ at hlt
      omega
  rw [take_eq, if_neg hnot, if_pos hstop]

/-- A sound length leads to its place. -/
theorem toInt_stop {n : Int64} (hn : 0 ≤ n.toInt)
    (h : (buf.length - bs.length : ℕ) + n.toInt < 2 ^ 63) :
    (Int64.ofNat (before buf bs).pos + n).toInt = (before buf bs).pos + n.toInt ∧
      (before buf bs).pos + bs.length = buf.length := by
  change ((before buf bs).pos : ℤ) + _ < _ at h
  have hpos : (Int64.ofNat (before buf bs).pos).toInt = (before buf bs).pos :=
    Int64.toInt_ofNat_of_lt (by omega)
  rw [Int64.toInt_add, hpos]
  exact ⟨Int.bmod_eq_of_le (by omega) (by omega), Nat.sub_add_cancel hs.length_le⟩

theorem take_short {n : Int64} (hn : 0 ≤ n.toInt)
    (h : (buf.length - bs.length : ℕ) + n.toInt < 2 ^ 63) (hlt : bs.length < n.toInt.toNat) :
    ∃ r', Sql.take n (before buf bs) = some ([], r') ∧ r'.err.isSome := by
  obtain ⟨hstop, hend⟩ := toInt_stop hs hn h
  have hlong : ((before buf bs).buf.length : ℤ) < (Int64.ofNat (before buf bs).pos + n).toInt := by
    change (buf.length : ℤ) < _
    omega
  refine ⟨{ before buf bs with err := some "sql: short read" }, ?_, rfl⟩
  rw [take_eq, if_pos (Or.inr hlong)]

theorem take_inside {n : Int64} (hn : 0 ≤ n.toInt)
    (h : (buf.length - bs.length : ℕ) + n.toInt < 2 ^ 63) (hle : n.toInt.toNat ≤ bs.length) :
    Sql.take n (before buf bs) =
      some (bs.take n.toInt.toNat, before buf (bs.drop n.toInt.toNat)) := by
  obtain ⟨hstop, hend⟩ := toInt_stop hs hn h
  have hnot : ¬ ((before buf bs).err.isSome ∨
      ((before buf bs).buf.length : ℤ) < (Int64.ofNat (before buf bs).pos + n).toInt) := by
    rintro (herr | hlt)
    · cases herr
    · change (buf.length : ℤ) < _ at hlt
      omega
  have hlen : (Int64.ofNat (before buf bs).pos + n).toInt.toNat - (before buf bs).pos =
      n.toInt.toNat := by omega
  have hpos : (Int64.ofNat (before buf bs).pos + n).toInt.toNat =
      (before buf (bs.drop n.toInt.toNat)).pos := by
    change _ = buf.length - (bs.drop n.toInt.toNat).length
    rw [List.length_drop]
    omega
  rw [take_eq, if_neg hnot, if_neg (by omega), hlen, hpos]
  exact congrArg (fun s => some (s.take n.toInt.toNat, _)) (drop_before hs)

end Suffix

theorem readByte_cons {buf bs : Bytes} {b : UInt8} (hs : (b :: bs) <:+ buf) :
    readByte (before buf (b :: bs)) = some (b, before buf bs) := by
  have hle := hs.length_le
  have hget : buf[buf.length - (b :: bs).length]? = some b := by
    rw [← List.head?_drop, ← List.suffix_iff_eq_drop.mp hs, List.head?_cons]
  rw [List.length_cons] at hle hget
  have hpos : buf.length - (bs.length + 1) + 1 = buf.length - bs.length := by omega
  simp only [readByte, before, hget, List.length_cons, hpos]

/-! ### Behind an error -/

theorem checkCount_zero (r : Reader) : checkCount 0 r = some ((), r) :=
  if_pos ⟨le_refl _, Int.natCast_nonneg _⟩

theorem make_zero (r : Reader) : Sql.make 0 r = some ((), r) := if_neg (by decide)

/-- A calm layout goes on behind an error, which sticks. -/
theorem Calm.runs (hzero : ∀ r, check 0 r = some ((), r)) (ht : t.Calm) {r : Reader}
    (hr : r.err.isSome) : ∃ a r', t.runWith check r = some (a, r') ∧ r'.err.isSome := by
  induction t generalizing r with
  | done a => exact ⟨a, r, rfl, hr⟩
  | byte next ih =>
    obtain ⟨r', hread, hr'⟩ := readByte_failed hr
    rw [runWith, run_some hread]
    exact ih 0 ht hr'
  | uvarint next ih =>
    obtain ⟨r', hread, hr'⟩ := readUvarint_failed hr
    rw [runWith, run_some hread]
    exact ih 0 ht hr'
  | take n next ih =>
    obtain ⟨r', hread, hr'⟩ := take_failed n hr
    rw [runWith, run_some hread]
    exact ih [] ht hr'
  | make n next ih =>
    obtain ⟨rfl, ht⟩ := ht
    rw [runWith, run_some (hzero r), run_some (make_zero r)]
    exact ih ht hr
  | loop n next ih =>
    obtain ⟨rfl, ht⟩ := ht
    rw [runWith, run_some (hzero r)]
    exact ih ht hr
  | useErr next ih => exact ih r.err (ht r.err) hr
  | stuck => exact ht.elim

theorem Calm.run_some (ht : t.Calm) {r : Reader} (hr : r.err.isSome) :
    ∃ a r', t.run r = some (a, r') ∧ r'.err.isSome :=
  @Calm.runs _ t (fun _ => pure ()) (fun _ => rfl) ht r hr

/-! ### Sound bytes -/

section Count

variable {buf bs : Bytes} {n : Int64}

theorem checkCount_of (h : 0 ≤ n.toInt ∧ n.toInt ≤ buf.length) :
    checkCount n (before buf bs) = some ((), before buf bs) := if_pos h

theorem checkCount_of_not (h : ¬ (0 ≤ n.toInt ∧ n.toInt ≤ buf.length)) :
    checkCount n (before buf bs) = none := if_neg h

theorem eq_of_checkCount {r r' : Reader} (h : checkCount n r = some ((), r')) : r = r' := by
  unfold checkCount at h
  split at h
  · exact (Prod.mk.inj (Option.some.inj h)).2
  · cases h

end Count

/-- What can be read to the end is read by the source in the same way. -/
theorem run_of_checked {r : Reader} {p : α × Reader} (h : t.checked r = some p) :
    t.run r = some p := by
  unfold checked run at *
  induction t generalizing r with
  | done a => exact h
  | byte next ih =>
    obtain ⟨q, hq, hnext⟩ := Option.bind_eq_some_iff.mp h
    rw [runWith, run_some hq]
    exact ih _ hnext
  | uvarint next ih =>
    obtain ⟨q, hq, hnext⟩ := Option.bind_eq_some_iff.mp h
    rw [runWith, run_some hq]
    exact ih _ hnext
  | take n next ih =>
    obtain ⟨q, hq, hnext⟩ := Option.bind_eq_some_iff.mp h
    rw [runWith, run_some hq]
    exact ih _ hnext
  | make n next ih =>
    obtain ⟨⟨u, r₁⟩, hcheck, hmade⟩ := Option.bind_eq_some_iff.mp h
    obtain ⟨⟨u', r₂⟩, hmake, hnext⟩ := Option.bind_eq_some_iff.mp hmade
    obtain rfl := eq_of_checkCount hcheck
    rw [runWith, pure_bind, run_some hmake]
    exact ih hnext
  | loop n next ih =>
    obtain ⟨⟨u, r₁⟩, hcheck, hnext⟩ := Option.bind_eq_some_iff.mp h
    obtain rfl := eq_of_checkCount hcheck
    rw [runWith, pure_bind]
    exact ih hnext
  | useErr next ih => exact ih _ h
  | stuck => cases h

/-- The reads of a layout with fuel meet no panic and no bad count exactly on sound bytes. -/
theorem isSome_checked_iff {buf bs : Bytes} (hs : bs <:+ buf) (hbuf : buf.length < 2 ^ 63)
    (ht : t.Fueled bs.length) :
    (t.checked (before buf bs)).isSome ↔ t.sound buf.length bs := by
  unfold checked
  induction t generalizing bs with
  | done a => exact iff_of_true rfl rfl
  | byte next ih =>
    rw [runWith]
    cases bs with
    | nil =>
      obtain ⟨r', hread, hr'⟩ := readByte_nil buf
      obtain ⟨a, r'', hrun, -⟩ := Calm.runs checkCount_zero ht.1 hr'
      rw [run_some hread, hrun]
      exact iff_of_true rfl rfl
    | cons b bs =>
      rw [run_some (readByte_cons hs)]
      exact ih b ((List.suffix_cons b bs).trans hs) (ht.2 b _ (Nat.lt_succ_self _))
  | uvarint next ih =>
    rw [runWith, sound]
    cases hread : Ydbgo.uvarint bs with
    | none =>
      obtain ⟨r', hread, hr'⟩ := readUvarint_none hs hread
      obtain ⟨a, r'', hrun, -⟩ := Calm.runs checkCount_zero ht.1 hr'
      rw [run_some hread, hrun]
      exact iff_of_true rfl rfl
    | some p =>
      have hpos := uvarint_pos hread
      have hle := uvarint_le hread
      rw [run_some (readUvarint_some hs hread)]
      apply ih p.1 ((List.drop_suffix _ _).trans hs)
      apply ht.2
      rw [List.length_drop]
      omega
  | take n next ih =>
    rw [runWith, sound, Bool.and_eq_true, decide_eq_true_eq]
    by_cases hn : 0 ≤ n.toInt ∧ (buf.length - bs.length : ℕ) + n.toInt < 2 ^ 63
    · rw [and_iff_right hn, Bool.or_eq_true, decide_eq_true_eq]
      by_cases hlt : bs.length < n.toInt.toNat
      · obtain ⟨r', hread, hr'⟩ := take_short hs hn.1 hn.2 hlt
        obtain ⟨a, r'', hrun, -⟩ := Calm.runs checkCount_zero ht.1 hr'
        rw [run_some hread, hrun]
        exact iff_of_true rfl (Or.inl hlt)
      · rw [run_some (take_inside hs hn.1 hn.2 (Nat.le_of_not_lt hlt)), or_iff_right hlt]
        apply ih _ ((List.drop_suffix _ _).trans hs)
        apply ht.2
        rw [List.length_drop]
        omega
    · rw [run_none (take_unsound hbuf hn)]
      exact iff_of_false nofun fun h => hn h.1
  | make n next ih =>
    rw [runWith, sound, Bool.and_eq_true, decide_eq_true_eq, ← ih hs ht]
    by_cases hn : 0 ≤ n.toInt ∧ n.toInt ≤ buf.length
    · rw [run_some (checkCount_of hn)]
      by_cases hmake : 16 * n.toInt ≤ 2 ^ 48
      · have hmade : Sql.make n (before buf bs) = some ((), before buf bs) := if_neg (by omega)
        rw [run_some hmade]
        exact ⟨fun h => ⟨⟨hn.1, hn.2, hmake⟩, h⟩, fun h => h.2⟩
      · have hmade : Sql.make n (before buf bs) = none := if_pos (by omega)
        rw [run_none hmade]
        exact iff_of_false nofun fun h => hmake h.1.2.2
    · rw [run_none (checkCount_of_not hn)]
      exact iff_of_false nofun fun h => hn ⟨h.1.1, h.1.2.1⟩
  | loop n next ih =>
    rw [runWith, sound, Bool.and_eq_true, decide_eq_true_eq, ← ih hs ht]
    by_cases hn : 0 ≤ n.toInt ∧ n.toInt ≤ buf.length
    · rw [run_some (checkCount_of hn)]
      exact (and_iff_right hn).symm
    · rw [run_none (checkCount_of_not hn)]
      exact iff_of_false nofun fun h => hn h.1
  | useErr next ih => exact ih none hs ht
  | stuck => exact ht.elim

/-! ### Fuel -/

/-- A read that failed, or one that took bytes off the rest. -/
def Took (d : Decoder α) (zero : α) (buf bs : Bytes) (most : ℕ) : Prop :=
  (∃ r, d (before buf bs) = some (zero, r) ∧ r.err.isSome) ∨
    ∃ a rest, rest <:+ bs ∧ rest.length + most ≤ bs.length ∧
      d (before buf bs) = some (a, before buf rest)

section Took

variable {buf bs : Bytes}

theorem took_readByte (hs : bs <:+ buf) : Took readByte 0 buf bs 1 := by
  cases bs with
  | nil => exact .inl (readByte_nil buf)
  | cons b bs => exact .inr ⟨b, bs, List.suffix_cons b bs, le_rfl, readByte_cons hs⟩

theorem took_readUvarint (hs : bs <:+ buf) : Took readUvarint 0 buf bs 1 := by
  cases hread : Ydbgo.uvarint bs with
  | none => exact .inl (readUvarint_none hs hread)
  | some p =>
    have hpos := uvarint_pos hread
    have hle := uvarint_le hread
    refine .inr ⟨p.1, bs.drop p.2, List.drop_suffix _ _, ?_, readUvarint_some hs hread⟩
    rw [List.length_drop]
    omega

theorem took_take (hs : bs <:+ buf) (hbuf : buf.length < 2 ^ 63) (n : Int64) :
    Sql.take n (before buf bs) = none ∨ Took (Sql.take n) [] buf bs 0 := by
  by_cases hn : 0 ≤ n.toInt ∧ (buf.length - bs.length : ℕ) + n.toInt < 2 ^ 63
  · by_cases hlt : bs.length < n.toInt.toNat
    · exact .inr (.inl (take_short hs hn.1 hn.2 hlt))
    · refine .inr (.inr ⟨_, _, List.drop_suffix _ _, ?_,
        take_inside hs hn.1 hn.2 (Nat.le_of_not_lt hlt)⟩)
      rw [List.length_drop]
      omega
  · exact .inl (take_unsound hbuf hn)

end Took

/-- Behind an error more fuel makes no difference. -/
theorem Below.run_failed (h : Below t t') (ht : t.Calm) {r : Reader} (hr : r.err.isSome) :
    t'.run r = t.run r := by
  unfold run
  induction h generalizing r with
  | done a => rfl
  | byte _ ih =>
    obtain ⟨r', hread, hr'⟩ := readByte_failed hr
    rw [runWith, runWith, run_some hread, run_some hread]
    exact ih 0 ht hr'
  | uvarint _ ih =>
    obtain ⟨r', hread, hr'⟩ := readUvarint_failed hr
    rw [runWith, runWith, run_some hread, run_some hread]
    exact ih 0 ht hr'
  | take n _ ih =>
    obtain ⟨r', hread, hr'⟩ := take_failed n hr
    rw [runWith, runWith, run_some hread, run_some hread]
    exact ih [] ht hr'
  | make n _ ih =>
    obtain ⟨rfl, ht⟩ := ht
    rw [runWith, runWith, pure_bind, pure_bind, run_some (make_zero r), run_some (make_zero r)]
    exact ih ht hr
  | loop n _ ih =>
    rw [runWith, runWith, pure_bind, pure_bind]
    exact ih ht.2 hr
  | useErr _ ih => exact ih r.err (ht r.err) hr
  | stuck t' => exact ht.elim

/-- Where the fuel lasts, more fuel makes no difference. -/
theorem Below.run_eq (h : Below t t') {buf bs : Bytes} (hs : bs <:+ buf)
    (hbuf : buf.length < 2 ^ 63) (ht : t.Fueled bs.length) :
    t'.run (before buf bs) = t.run (before buf bs) := by
  have hfail := @Below.run_failed α
  unfold run at *
  induction h generalizing bs with
  | done a => rfl
  | byte hnext ih =>
    rcases took_readByte hs with ⟨r', hread, hr'⟩ | ⟨b, rest, hrest, hlt, hread⟩
    · rw [runWith, runWith, run_some hread, run_some hread]
      exact hfail (hnext 0) ht.1 hr'
    · rw [runWith, runWith, run_some hread, run_some hread]
      exact ih b (hrest.trans hs) (ht.2 b _ hlt)
  | uvarint hnext ih =>
    rcases took_readUvarint hs with ⟨r', hread, hr'⟩ | ⟨v, rest, hrest, hlt, hread⟩
    · rw [runWith, runWith, run_some hread, run_some hread]
      exact hfail (hnext 0) ht.1 hr'
    · rw [runWith, runWith, run_some hread, run_some hread]
      exact ih v (hrest.trans hs) (ht.2 v _ hlt)
  | take n hnext ih =>
    rcases took_take hs hbuf n with hread | ⟨r', hread, hr'⟩ | ⟨s, rest, hrest, hle, hread⟩
    · rw [runWith, runWith, run_none hread, run_none hread]
    · rw [runWith, runWith, run_some hread, run_some hread]
      exact hfail (hnext []) ht.1 hr'
    · rw [runWith, runWith, run_some hread, run_some hread]
      exact ih s (hrest.trans hs) (ht.2 s _ hle)
  | make n _ ih =>
    rw [runWith, runWith, pure_bind, pure_bind]
    by_cases hmake : n.toInt < 0 ∨ 2 ^ 48 < 16 * n.toInt
    · have hmade : Sql.make n (before buf bs) = none := if_pos hmake
      rw [run_none hmade, run_none hmade]
    · have hmade : Sql.make n (before buf bs) = some ((), before buf bs) := if_neg hmake
      rw [run_some hmade, run_some hmade]
      exact ih hs ht
  | loop n _ ih =>
    rw [runWith, runWith, pure_bind, pure_bind]
    exact ih hs ht
  | useErr _ ih => exact ih none hs ht
  | stuck t' => exact ht.elim

/-! ### Cut inputs -/

/-- The reader on the first `k` bytes of its input. -/
def cut (k : ℕ) (r : Reader) : Reader := { r with buf := r.buf.take k }

/-- On the cut input the read fails or takes what it takes on the whole. -/
def CutRead (d : Decoder α) (zero : α) (k : ℕ) (r : Reader) : Prop :=
  (∃ r', d (cut k r) = some (zero, r') ∧ r'.err.isSome) ∨
    ∃ a r', d r = some (a, r') ∧ d (cut k r) = some (a, cut k r') ∧ r'.err = none ∧ r'.pos ≤ k

section Cut

variable {r : Reader} {k : ℕ}

theorem cutRead_readByte (h : r.err = none) : CutRead readByte 0 k r := by
  by_cases hk : r.pos < k
  · have htake : (r.buf.take k)[r.pos]? = r.buf[r.pos]? := List.getElem?_take_of_lt hk
    cases hget : r.buf[r.pos]? with
    | none =>
      refine .inl ⟨{ cut k r with err := some "sql: short read" }, ?_, rfl⟩
      simp only [readByte, cut, h, htake, hget]
    | some b =>
      refine .inr ⟨b, { r with pos := r.pos + 1 }, ?_, ?_, h, hk⟩
      · simp only [readByte, h, hget]
      · simp only [readByte, cut, h, htake, hget]
  · have hget : (r.buf.take k)[r.pos]? = none :=
      List.getElem?_eq_none ((List.length_take_le _ _).trans (Nat.le_of_not_lt hk))
    refine .inl ⟨{ cut k r with err := some "sql: short read" }, ?_, rfl⟩
    simp only [readByte, cut, h, hget]

theorem cutRead_readUvarint (h : r.err = none) (hk : r.pos ≤ k) :
    CutRead readUvarint 0 k r := by
  have herr : ¬ r.err.isSome := by
    rw [h]
    exact nofun
  have hcut : ¬ (cut k r).err.isSome := herr
  cases hread : Ydbgo.uvarint ((cut k r).buf.drop (cut k r).pos) with
  | none =>
    refine .inl ⟨{ cut k r with err := some "sql: bad varint" }, ?_, rfl⟩
    rw [readUvarint, if_neg hcut, hread]
  | some p =>
    have hdrop : (r.buf.take k).drop r.pos = (r.buf.drop r.pos).take (k - r.pos) := List.drop_take
    have hle := uvarint_le hread
    have hwhole : Ydbgo.uvarint (r.buf.drop r.pos) = some p := by
      have happend := uvarint_append hread ((r.buf.drop r.pos).drop (k - r.pos))
      change Ydbgo.uvarint ((r.buf.take k).drop r.pos ++ _) = _ at happend
      rwa [hdrop, List.take_append_drop] at happend
    change p.2 ≤ ((r.buf.take k).drop r.pos).length at hle
    rw [hdrop, List.length_take] at hle
    refine .inr ⟨p.1, { r with pos := r.pos + p.2 }, ?_, ?_, h, ?_⟩
    · rw [readUvarint, if_neg herr, hwhole]
    · rw [readUvarint, if_neg hcut, hread]
      rfl
    · change r.pos + p.2 ≤ k
      omega

theorem cutRead_take (h : r.err = none) (hk : r.pos ≤ k) (hlen : k ≤ r.buf.length) {n : Int64}
    {p : Bytes × Reader} (hsome : Sql.take n r = some p) : CutRead (Sql.take n) [] k r := by
  obtain ⟨stop, hstop⟩ : ∃ stop, (Int64.ofNat r.pos + n).toInt = stop := ⟨_, rfl⟩
  have hcutlen : (cut k r).buf.length = k := by
    change (r.buf.take k).length = k
    rw [List.length_take, Nat.min_eq_left hlen]
  have hcutstop : (Int64.ofNat (cut k r).pos + n).toInt = stop := hstop
  by_cases hlong : (k : ℤ) < stop
  · refine .inl ⟨{ cut k r with err := some "sql: short read" }, ?_, rfl⟩
    rw [take_eq, if_pos (Or.inr (by rw [hcutlen, hcutstop]; exact hlong))]
  · have hnot : ¬ (r.err.isSome ∨ (r.buf.length : ℤ) < (Int64.ofNat r.pos + n).toInt) := by
      rw [h, hstop]
      rintro (herr | hlt)
      · cases herr
      · omega
    have hback : ¬ stop < r.pos := by
      intro hback
      rw [take_eq, if_neg hnot, hstop, if_pos hback] at hsome
      cases hsome
    have hcutnot : ¬ ((cut k r).err.isSome ∨
        ((cut k r).buf.length : ℤ) < (Int64.ofNat (cut k r).pos + n).toInt) := by
      rw [hcutlen, hcutstop]
      rintro (herr | hlt)
      · exact hnot (.inl herr)
      · exact hlong hlt
    have hslice : ((r.buf.take k).drop r.pos).take (stop.toNat - r.pos) =
        (r.buf.drop r.pos).take (stop.toNat - r.pos) := by
      rw [List.drop_take, List.take_take, Nat.min_eq_left (by omega)]
    refine .inr ⟨(r.buf.drop r.pos).take (stop.toNat - r.pos), { r with pos := stop.toNat },
      ?_, ?_, h, ?_⟩
    · rw [take_eq, if_neg hnot, hstop, if_neg hback]
    · have hcutback : ¬ stop < (cut k r).pos := hback
      rw [take_eq, if_neg hcutnot, hcutstop, if_neg hcutback, ← hslice]
      rfl
    · change stop.toNat ≤ k
      omega

/-- On a cut input the layout meets an error or does what it does on the whole. -/
theorem run_cut {buf bs : Bytes} (hs : bs <:+ buf) (hbuf : buf.length < 2 ^ 63)
    (ht : t.Fueled bs.length) (hk : (before buf bs).pos ≤ k) (hlen : k ≤ buf.length) {a : α}
    (h : t.run (before buf bs) = some (a, r)) :
    ∃ a' r', t.run (cut k (before buf bs)) = some (a', r') ∧
      (r'.err.isSome ∨ a' = a ∧ r' = cut k r ∧ r.pos ≤ k) := by
  have hcalm := @Calm.run_some α
  unfold run at *
  induction t generalizing bs with
  | done b =>
    obtain ⟨rfl, rfl⟩ := Prod.mk.inj (Option.some.inj h)
    exact ⟨b, _, rfl, .inr ⟨rfl, rfl, hk⟩⟩
  | byte next ih =>
    rw [runWith] at h ⊢
    rcases cutRead_readByte (k := k) (rfl : (before buf bs).err = none) with
      ⟨r', hread, hr'⟩ | ⟨b, r', hread, hcut, hr', hpos⟩
    · obtain ⟨a', r'', hrun, herr⟩ := hcalm ht.1 hr'
      exact ⟨a', r'', by rw [run_some hread, hrun], .inl herr⟩
    · rcases took_readByte hs with ⟨r'', hread', herr⟩ | ⟨b', rest, hrest, hlt, hread'⟩
      · obtain ⟨-, rfl⟩ := Prod.mk.inj (Option.some.inj (hread.symm.trans hread'))
        rw [hr'] at herr
        cases herr
      · obtain ⟨rfl, rfl⟩ := Prod.mk.inj (Option.some.inj (hread.symm.trans hread'))
        rw [run_some hread] at h
        rw [run_some hcut]
        exact ih b (hrest.trans hs) (ht.2 b _ hlt) hpos h
  | uvarint next ih =>
    rw [runWith] at h ⊢
    rcases cutRead_readUvarint (rfl : (before buf bs).err = none) hk with
      ⟨r', hread, hr'⟩ | ⟨v, r', hread, hcut, hr', hpos⟩
    · obtain ⟨a', r'', hrun, herr⟩ := hcalm ht.1 hr'
      exact ⟨a', r'', by rw [run_some hread, hrun], .inl herr⟩
    · rcases took_readUvarint hs with ⟨r'', hread', herr⟩ | ⟨v', rest, hrest, hlt, hread'⟩
      · obtain ⟨-, rfl⟩ := Prod.mk.inj (Option.some.inj (hread.symm.trans hread'))
        rw [hr'] at herr
        cases herr
      · obtain ⟨rfl, rfl⟩ := Prod.mk.inj (Option.some.inj (hread.symm.trans hread'))
        rw [run_some hread] at h
        rw [run_some hcut]
        exact ih v (hrest.trans hs) (ht.2 v _ hlt) hpos h
  | take n next ih =>
    rw [runWith] at h ⊢
    obtain ⟨p, hp, -⟩ := Option.bind_eq_some_iff.mp h
    rcases cutRead_take (rfl : (before buf bs).err = none) hk hlen hp with
      ⟨r', hread, hr'⟩ | ⟨s, r', hread, hcut, hr', hpos⟩
    · obtain ⟨a', r'', hrun, herr⟩ := hcalm ht.1 hr'
      exact ⟨a', r'', by rw [run_some hread, hrun], .inl herr⟩
    · rcases took_take hs hbuf n with hread' | ⟨r'', hread', herr⟩ | ⟨s', rest, hrest, hle, hread'⟩
      · rw [hread] at hread'
        cases hread'
      · obtain ⟨-, rfl⟩ := Prod.mk.inj (Option.some.inj (hread.symm.trans hread'))
        rw [hr'] at herr
        cases herr
      · obtain ⟨rfl, rfl⟩ := Prod.mk.inj (Option.some.inj (hread.symm.trans hread'))
        rw [run_some hread] at h
        rw [run_some hcut]
        exact ih s (hrest.trans hs) (ht.2 s _ hle) hpos h
  | make n next ih =>
    rw [runWith, pure_bind] at h ⊢
    by_cases hmake : n.toInt < 0 ∨ 2 ^ 48 < 16 * n.toInt
    · have hmade : Sql.make n (before buf bs) = none := if_pos hmake
      rw [run_none hmade] at h
      cases h
    · have hmade : ∀ r, Sql.make n r = some ((), r) := fun _ => if_neg hmake
      rw [run_some (hmade _)] at h ⊢
      exact ih hs ht hk h
  | loop n next ih =>
    rw [runWith, pure_bind] at h ⊢
    exact ih hs ht hk h
  | useErr next ih => exact ih none hs ht hk h
  | stuck => exact ht.elim

end Cut

end Layout

end Ydbgo.Sql
