import Mlmq.Lib.Nio
import Mlmq.Lib.Format

/-! # Reading and writing formats

`Reads m W` says exactly what `m` reads: it returns `a` iff a word of `W a` stands at the position,
and then the position is behind that word; when it throws, only the position has moved. `Writes m
bs` says what `m` writes: the bytes `bs` if they fit, and otherwise it throws
`BufferOverflowException` after it has stored a part of them.

The rules follow the sequencing of the program: `Reads.field` for one field of a record,
`Reads.pure` for the record itself, `Writes.seq` for two writes. Neither changes the capacity of the
buffer (`KeepsCapacity`). -/

namespace Mlmq.Lib.Cursor

open Mlmq.Lib.BigEndian Mlmq.Lib.Format Mlmq.Lib.Nio

variable {α β γ : Type}

/-! ### Steps of `EStateM` -/

theorem bind_ok_iff {m : Io α} {k : α → Io β} {b b' : ByteBuffer} {c : β} :
    (m >>= k) b = .ok c b' ↔ ∃ a b₁, m b = .ok a b₁ ∧ k a b₁ = .ok c b' := by
  change EStateM.bind m k b = _ ↔ _
  unfold EStateM.bind
  cases h : m b with
  | ok a b₁ => simp
  | error e b₁ => simp

theorem bind_error_iff {m : Io α} {k : α → Io β} {b b' : ByteBuffer} {e : Throwable} :
    (m >>= k) b = .error e b' ↔
      m b = .error e b' ∨ ∃ a b₁, m b = .ok a b₁ ∧ k a b₁ = .error e b' := by
  change EStateM.bind m k b = _ ↔ _
  unfold EStateM.bind
  cases h : m b with
  | ok a b₁ => simp
  | error e b₁ => simp

theorem bind_of_ok {m : Io α} {k : α → Io β} {b b₁ : ByteBuffer} {a : α} (h : m b = .ok a b₁) :
    (m >>= k) b = k a b₁ := by
  change EStateM.bind m k b = _
  unfold EStateM.bind
  rw [h]

theorem bind_of_error {m : Io α} {k : α → Io β} {b b₁ : ByteBuffer} {e : Throwable}
    (h : m b = .error e b₁) : (m >>= k) b = .error e b₁ := by
  change EStateM.bind m k b = _
  unfold EStateM.bind
  rw [h]

theorem position_ok (b : ByteBuffer) : position b = .ok b.position b := rfl

theorem setPosition_ok {b : ByteBuffer} {p : ℕ} (h : p ≤ b.limit) :
    setPosition p b = .ok () (b.seek p h) := dif_pos h

/-! ### Reading -/

/-- **What a reader reads.** -/
structure Reads (m : Io α) (W : α → Language UInt8) : Prop where
  ok_iff : ∀ b a b', m b = .ok a b' ↔ ∃ bs ∈ W a, bs <+: b.rest ∧ b' = b.skip bs.length
  error : ∀ b e b', m b = .error e b' → ∃ n ≤ b.remaining, b' = b.skip n

theorem prefix_length_le {b : ByteBuffer} {bs : List UInt8} (h : bs <+: b.rest) :
    bs.length ≤ b.remaining := by
  have := h.length_le
  rwa [ByteBuffer.length_rest] at this

/-- A text starts with a word of one value only. -/
theorem Reads.eq_of_prefix {m : Io α} {W : α → Language UInt8} (h : Reads m W) {a a' : α}
    {u v : List UInt8} (hu : u ∈ W a) (hv : v ∈ W a') (huv : u <+: v) (hlt : v.length < 2 ^ 31) :
    a = a' := by
  let b : ByteBuffer := ⟨v, 0, v.length, Nat.zero_le _, le_rfl, hlt⟩
  have hrest : b.rest = v := List.take_length
  have h₁ := (h.ok_iff b a _).mpr ⟨u, hu, hrest.symm ▸ huv, rfl⟩
  have h₂ := (h.ok_iff b a' _).mpr ⟨v, hv, hrest.symm ▸ List.prefix_refl v, rfl⟩
  rw [h₁] at h₂
  injection h₂

/-- Two pieces in a row stand at the position iff the second stands behind the first. -/
theorem append_prefix_rest {b : ByteBuffer} {u v : List UInt8} :
    u ++ v <+: b.rest ↔ u <+: b.rest ∧ v <+: (b.skip u.length).rest := by
  rw [ByteBuffer.rest_skip]
  constructor
  · rintro ⟨w, hw⟩
    rw [← hw, List.append_assoc]
    exact ⟨List.prefix_append u _, by rw [List.drop_left]; exact List.prefix_append v w⟩
  · rintro ⟨⟨w, hw⟩, h⟩
    rw [← hw, List.drop_left] at h
    rw [← hw]
    exact (List.prefix_append_right_inj u).mpr h

theorem Reads.congr {m : Io α} {W W' : α → Language UInt8} (h : Reads m W) (hW : ∀ a, W a = W' a) :
    Reads m W' := by
  rw [← funext hW]
  exact h

theorem Reads.pure (a : α) : Reads (pure a) fun c => guarded (c = a) 1 where
  ok_iff b c b' := by
    change EStateM.Result.ok a b = .ok c b' ↔ _
    simp only [EStateM.Result.ok.injEq, mem_guarded, Language.mem_one]
    constructor
    · rintro ⟨rfl, rfl⟩
      exact ⟨[], ⟨rfl, rfl⟩, List.nil_prefix, by simp⟩
    · rintro ⟨_, ⟨rfl, rfl⟩, -, rfl⟩
      exact ⟨rfl, by simp⟩
  error b e b' h := by cases h

theorem Reads.throw (e : Throwable) : Reads (throw e : Io α) fun _ => 0 where
  ok_iff b c b' := by
    constructor
    · intro h
      cases h
    · rintro ⟨_, hbs, -⟩
      exact absurd hbs (Set.notMem_empty _)
  error b e' b' h := by
    cases h
    exact ⟨0, Nat.zero_le _, ByteBuffer.skip_zero.symm⟩

/-- **Reading two things in a row.** -/
theorem Reads.bind {m : Io α} {k : α → Io γ} {W : α → Language UInt8} {V : α → γ → Language UInt8}
    (hm : Reads m W) (hk : ∀ a, Reads (k a) (V a)) :
    Reads (m >>= k) fun c => {bs | ∃ a, bs ∈ W a * V a c} where
  ok_iff b c b' := by
    rw [bind_ok_iff]
    constructor
    · rintro ⟨a, b₁, h1, h2⟩
      obtain ⟨u, hu, hpre, rfl⟩ := (hm.ok_iff _ _ _).mp h1
      obtain ⟨v, hv, hpre', rfl⟩ := ((hk a).ok_iff _ _ _).mp h2
      refine ⟨u ++ v, ⟨a, Language.append_mem_mul hu hv⟩, append_prefix_rest.mpr ⟨hpre, hpre'⟩, ?_⟩
      rw [ByteBuffer.skip_skip, List.length_append]
    · rintro ⟨w, ⟨a, hw⟩, hpre, rfl⟩
      obtain ⟨u, hu, v, hv, rfl⟩ := Language.mem_mul.mp hw
      obtain ⟨h1, h2⟩ := append_prefix_rest.mp hpre
      refine ⟨a, b.skip u.length, (hm.ok_iff _ _ _).mpr ⟨u, hu, h1, rfl⟩, ?_⟩
      refine ((hk a).ok_iff _ _ _).mpr ⟨v, hv, h2, ?_⟩
      rw [ByteBuffer.skip_skip, List.length_append]
  error b e b' h := by
    rcases bind_error_iff.mp h with h | ⟨a, b₁, h1, h2⟩
    · exact hm.error _ _ _ h
    · obtain ⟨u, -, hpre, rfl⟩ := (hm.ok_iff _ _ _).mp h1
      obtain ⟨n, hn, rfl⟩ := (hk a).error _ _ _ h2
      have hu := prefix_length_le hpre
      rw [ByteBuffer.remaining_skip hu] at hn
      exact ⟨u.length + n, by omega, by rw [ByteBuffer.skip_skip]⟩

/-- **One field of a record.** `m` reads the field `π`, `k` the rest of the record. -/
theorem Reads.field {m : Io α} {k : α → Io γ} {W : α → Language UInt8} {V : γ → Language UInt8}
    {P : γ → Prop} (π : γ → α) (hm : Reads m W)
    (hk : ∀ a, Reads (k a) fun c => guarded (P c ∧ π c = a) (V c)) :
    Reads (m >>= k) fun c => guarded (P c) (W (π c) * V c) := by
  refine (hm.bind hk).congr fun c => ?_
  ext bs
  constructor
  · rintro ⟨a, h⟩
    obtain ⟨u, hu, v, ⟨⟨hP, rfl⟩, hv⟩, rfl⟩ := Language.mem_mul.mp h
    exact ⟨hP, Language.append_mem_mul hu hv⟩
  · rintro ⟨hP, h⟩
    obtain ⟨u, hu, v, hv, rfl⟩ := Language.mem_mul.mp h
    exact ⟨π c, Language.append_mem_mul hu ⟨⟨hP, rfl⟩, hv⟩⟩

/-- Reading a field and wrapping it. -/
theorem Reads.map {m : Io α} {W : α → Language UInt8} (f : α → γ) (hm : Reads m W) :
    Reads (m >>= fun a => Pure.pure (f a)) fun c => {bs | ∃ a, c = f a ∧ bs ∈ W a} := by
  refine (hm.bind fun a => Reads.pure (f a)).congr fun c => ?_
  ext bs
  constructor
  · rintro ⟨a, h⟩
    obtain ⟨u, hu, v, ⟨rfl, rfl⟩, rfl⟩ := Language.mem_mul.mp h
    exact ⟨a, rfl, by rwa [List.append_nil]⟩
  · rintro ⟨a, rfl, hu⟩
    exact ⟨a, Language.mem_mul.mpr ⟨bs, hu, [], ⟨rfl, rfl⟩, List.append_nil bs⟩⟩

/-- **The last field of a record**, and the record itself. -/
theorem Reads.last {m : Io α} {W : α → Language UInt8} {P : γ → Prop} {f : α → γ} (π : γ → α)
    (hm : Reads m W) (hf : ∀ c a, P c ∧ π c = a ↔ c = f a) :
    Reads (m >>= fun a => Pure.pure (f a)) fun c => guarded (P c) (W (π c)) := by
  refine (hm.map f).congr fun c => ?_
  ext bs
  constructor
  · rintro ⟨a, hc, hbs⟩
    obtain ⟨hP, rfl⟩ := (hf c a).mpr hc
    exact ⟨hP, hbs⟩
  · rintro ⟨hP, hbs⟩
    exact ⟨π c, (hf c _).mp ⟨hP, rfl⟩, hbs⟩

/-- An object of one class: the values that `f` makes, among those of `P`. -/
theorem Reads.object {m : Io α} {W : α → Language UInt8} {V : γ → Language UInt8} {P : γ → Prop}
    {f : α → γ} (hm : Reads m W) (hf : ∀ a, P (f a) ∧ V (f a) = W a)
    (hP : ∀ c, P c → ∃ a, c = f a) :
    Reads (m >>= fun a => Pure.pure (f a)) fun c => guarded (P c) (V c) := by
  refine (hm.map f).congr fun c => ?_
  ext bs
  constructor
  · rintro ⟨a, rfl, hbs⟩
    exact ⟨(hf a).1, (hf a).2 ▸ hbs⟩
  · rintro ⟨hc, hbs⟩
    obtain ⟨a, rfl⟩ := hP c hc
    exact ⟨a, rfl, (hf a).2 ▸ hbs⟩

/-- A choice made before reading on. -/
theorem Reads.ite {p : Prop} [Decidable p] {m m' : Io α} {W W' : α → Language UInt8}
    (hm : Reads m W) (hm' : Reads m' W') :
    Reads (if p then m else m') fun a => {bs | p ∧ bs ∈ W a ∨ ¬ p ∧ bs ∈ W' a} := by
  split_ifs with h
  · exact hm.congr fun a => Set.ext fun bs =>
      ⟨fun hbs => Or.inl ⟨h, hbs⟩, fun hbs => hbs.elim And.right fun h' => absurd h h'.1⟩
  · exact hm'.congr fun a => Set.ext fun bs =>
      ⟨fun hbs => Or.inr ⟨h, hbs⟩, fun hbs => hbs.elim (fun h' => absurd h'.1 h) And.right⟩

/-- A reader returns at most one value on the bytes in front of it. -/
theorem Reads.unique {m : Io α} {W : α → Language UInt8} (hm : Reads m W) {b : ByteBuffer}
    {a a' : α} {u v : List UInt8} (hu : u ∈ W a) (hv : v ∈ W a') (hub : u <+: b.rest)
    (hvb : v <+: b.rest) : a = a' := by
  have h1 := (hm.ok_iff b a _).mpr ⟨u, hu, hub, rfl⟩
  have h2 := (hm.ok_iff b a' _).mpr ⟨v, hv, hvb, rfl⟩
  rw [h1] at h2
  exact (EStateM.Result.ok.inj h2).1

/-- **A reader returns iff a word stands at the position.** -/
theorem Reads.isOk_iff {m : Io α} {W : α → Language UInt8} (hm : Reads m W) (b : ByteBuffer) :
    (∃ a b', m b = .ok a b') ↔ ∃ a, ∃ bs ∈ W a, bs <+: b.rest := by
  constructor
  · rintro ⟨a, b', h⟩
    obtain ⟨bs, hbs, hpre, -⟩ := (hm.ok_iff _ _ _).mp h
    exact ⟨a, bs, hbs, hpre⟩
  · rintro ⟨a, bs, hbs, hpre⟩
    exact ⟨a, _, (hm.ok_iff _ _ _).mpr ⟨bs, hbs, hpre, rfl⟩⟩

/-! ### The primitive readers -/

theorem reads_getArray (n : ℕ) : Reads (getArray n) fun bs => guarded (bs.length = n) {bs} where
  ok_iff b bs b' := by
    unfold getArray
    split_ifs with h
    · simp only [EStateM.Result.ok.injEq]
      constructor
      · rintro ⟨rfl, rfl⟩
        have hlen : (b.rest.take n).length = n := by simp [h]
        exact ⟨_, ⟨hlen, rfl⟩, List.take_prefix n _, by rw [hlen]⟩
      · rintro ⟨_, ⟨rfl, rfl⟩, hpre, rfl⟩
        exact ⟨(List.prefix_iff_eq_take.mp hpre).symm, rfl⟩
    · simp only [false_iff]
      rintro ⟨_, ⟨rfl, rfl⟩, hpre, -⟩
      exact h (prefix_length_le hpre)
  error b e b' h := by
    unfold getArray at h
    split_ifs at h
    cases h
    exact ⟨0, Nat.zero_le _, ByteBuffer.skip_zero.symm⟩

/-- A number of fixed width, read by `dec` and written by `enc`. -/
theorem reads_fixed {n : ℕ} (enc : α → List UInt8) (dec : List UInt8 → α)
    (hlen : ∀ a, (enc a).length = n) (hdec : ∀ a, dec (enc a) = a)
    (henc : ∀ bs : List UInt8, bs.length = n → enc (dec bs) = bs) :
    Reads (getArray n >>= fun bs => Pure.pure (dec bs)) fun a => {enc a} := by
  refine ((reads_getArray n).map dec).congr fun a => ?_
  ext bs
  constructor
  · rintro ⟨cs, rfl, hcs, rfl⟩
    exact (henc _ hcs).symm
  · rintro rfl
    exact ⟨enc a, (hdec a).symm, hlen a, rfl⟩

theorem reads_getInt : Reads getInt fun v => {intBytes v} :=
  reads_fixed intBytes intOf length_intBytes intOf_intBytes fun _ => intBytes_intOf

theorem reads_getLong : Reads getLong fun v => {longBytes v} :=
  reads_fixed longBytes longOf length_longBytes longOf_longBytes fun _ => longBytes_longOf

theorem reads_getByte : Reads getByte fun v => {[v]} := by
  refine reads_fixed (fun v => [v]) (fun bs => bs.headD 0) (fun _ => rfl) (fun _ => rfl)
    fun bs hbs => ?_
  obtain ⟨v, rfl⟩ := List.length_eq_one_iff.mp hbs
  rfl

/-! ### Writing -/

/-- **What a writer writes.** -/
structure Writes (m : Io Unit) (bs : List UInt8) : Prop where
  ok : ∀ b, bs.length ≤ b.remaining → m b = .ok () (b.write bs)
  overflow : ∀ b, b.remaining < bs.length →
    ∃ e zs, zs <+: bs ∧ zs.length ≤ b.remaining ∧ m b = .error e (b.write zs)

theorem writes_pure : Writes (pure ()) [] where
  ok b _ := by
    rw [ByteBuffer.write_nil]
    rfl
  overflow b h := absurd h (Nat.not_lt_zero _)

theorem writes_putArray (bs : List UInt8) : Writes (putArray bs) bs where
  ok b h := by
    unfold putArray
    rw [if_pos h]
  overflow b h := by
    refine ⟨.bufferOverflow, [], List.nil_prefix, Nat.zero_le _, ?_⟩
    unfold putArray
    rw [if_neg (by omega), ByteBuffer.write_nil]

theorem writes_putByte (v : UInt8) : Writes (putByte v) [v] := writes_putArray _

theorem writes_putInt (v : Int32) : Writes (putInt v) (intBytes v) := writes_putArray _

theorem writes_putLong (v : Int64) : Writes (putLong v) (longBytes v) := writes_putArray _

/-- **Two writes in a row.** -/
theorem Writes.seq {m k : Io Unit} {xs ys : List UInt8} (hm : Writes m xs) (hk : Writes k ys) :
    Writes (m >>= fun _ => k) (xs ++ ys) where
  ok b h := by
    have hlen := h
    rw [List.length_append] at hlen
    have hx : xs.length ≤ b.remaining := by omega
    rw [bind_of_ok (hm.ok b hx), hk.ok _ (by rw [ByteBuffer.remaining_write hx]; omega),
      ByteBuffer.write_write h]
  overflow b h := by
    rw [List.length_append] at h
    by_cases hx : xs.length ≤ b.remaining
    · obtain ⟨e, zs, hzs, hle, hz⟩ := hk.overflow (b.write xs) (by
        rw [ByteBuffer.remaining_write hx]
        omega)
      rw [ByteBuffer.remaining_write hx] at hle
      have hxz : (xs ++ zs).length ≤ b.remaining := by
        rw [List.length_append]
        omega
      refine ⟨e, xs ++ zs, (List.prefix_append_right_inj xs).mpr hzs, hxz, ?_⟩
      rw [bind_of_ok (hm.ok b hx), hz, ByteBuffer.write_write hxz]
    · obtain ⟨e, zs, hzs, hle, hz⟩ := hm.overflow b (by omega)
      exact ⟨e, zs, hzs.trans (List.prefix_append xs ys), hle, bind_of_error hz⟩

/-- A writer returns iff its bytes fit. -/
theorem Writes.isOk_iff {m : Io Unit} {bs : List UInt8} (hm : Writes m bs) (b : ByteBuffer) :
    (∃ b', m b = .ok () b') ↔ bs.length ≤ b.remaining := by
  constructor
  · rintro ⟨b', h⟩
    by_contra hlt
    obtain ⟨e, zs, -, -, hz⟩ := hm.overflow b (by omega)
    rw [hz] at h
    cases h
  · exact fun h => ⟨_, hm.ok b h⟩

/-! ### The capacity -/

/-- A computation leaves the capacity as it is, also when it throws. -/
structure KeepsCapacity (m : Io α) : Prop where
  ok : ∀ b a b', m b = .ok a b' → b'.capacity = b.capacity
  error : ∀ b e b', m b = .error e b' → b'.capacity = b.capacity

theorem KeepsCapacity.bind {m : Io α} {k : α → Io β} (hm : KeepsCapacity m)
    (hk : ∀ a, KeepsCapacity (k a)) : KeepsCapacity (m >>= k) where
  ok b c b' h := by
    obtain ⟨a, b₁, h1, h2⟩ := bind_ok_iff.mp h
    exact ((hk a).ok _ _ _ h2).trans (hm.ok _ _ _ h1)
  error b e b' h := by
    rcases bind_error_iff.mp h with h | ⟨a, b₁, h1, h2⟩
    · exact hm.error _ _ _ h
    · exact ((hk a).error _ _ _ h2).trans (hm.ok _ _ _ h1)

theorem keepsCapacity_position : KeepsCapacity position where
  ok b p b' h := by
    cases h
    rfl
  error b e b' h := by cases h

theorem keepsCapacity_setPosition (p : ℕ) : KeepsCapacity (setPosition p) where
  ok b u b' h := by
    unfold setPosition at h
    split_ifs at h
    cases h
    rfl
  error b e b' h := by
    unfold setPosition at h
    split_ifs at h
    cases h
    rfl

theorem Reads.keepsCapacity {m : Io α} {W : α → Language UInt8} (hm : Reads m W) :
    KeepsCapacity m where
  ok b a b' h := by
    obtain ⟨bs, -, -, rfl⟩ := (hm.ok_iff _ _ _).mp h
    rfl
  error b e b' h := by
    obtain ⟨n, -, rfl⟩ := hm.error _ _ _ h
    rfl

theorem Writes.keepsCapacity {m : Io Unit} {bs : List UInt8} (hm : Writes m bs) :
    KeepsCapacity m where
  ok b u b' h := by
    have hfit := (hm.isOk_iff b).mp ⟨b', h⟩
    rw [hm.ok b hfit] at h
    cases h
    exact ByteBuffer.capacity_write bs
  error b e b' h := by
    by_cases hfit : bs.length ≤ b.remaining
    · rw [hm.ok b hfit] at h
      cases h
    · obtain ⟨e', zs, -, -, hz⟩ := hm.overflow b (not_le.mp hfit)
      rw [hz] at h
      cases h
      exact ByteBuffer.capacity_write zs

end Mlmq.Lib.Cursor
