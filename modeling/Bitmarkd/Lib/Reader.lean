import Bitmarkd.Lib.Bytes

/-!
# Readers

A reader consumes bytes from the front of its input and returns a value, or stops with an error.
What a decoder needs of its readers is that they look at nothing but the bytes they consume:
`Stable p` says that a successful run of `p` took a prefix off the input, and that the same prefix
gives the same value whatever follows it. Sequencing keeps the property, so a decoder built from
stable readers is stable (`Stable.bind`).
-/

namespace Bitmarkd.Lib

/-- A reader with errors in `ε`. -/
abbrev Reader (ε α : Type) := StateT Bytes (Except ε) α

namespace Reader

variable {ε α β : Type}

/-- Stop with an error. -/
def fail (e : ε) : Reader ε α := fun _ => .error e

/-- The result of a computation that reads nothing. -/
def lift (x : Except ε α) : Reader ε α := fun b => x.map (·, b)

/-- The next `k` bytes, or `e` if there are fewer. -/
def take (e : ε) (k : Nat) : Reader ε Bytes := fun b =>
  if k ≤ b.length then .ok (b.take k, b.drop k) else .error e

theorem bind_eq_ok {p : Reader ε α} {f : α → Reader ε β} {b rest : Bytes} {y : β} :
    (p >>= f) b = .ok (y, rest) ↔ ∃ x mid, p b = .ok (x, mid) ∧ f x mid = .ok (y, rest) := by
  show (p b >>= fun z => f z.1 z.2) = .ok (y, rest) ↔ _
  cases hp : p b with
  | error e => simp [Bind.bind, Except.bind]
  | ok z =>
    obtain ⟨x, mid⟩ := z
    simp [Bind.bind, Except.bind]

/-! ## What a reader returns -/

/-- Every value that a reader returns has the property. -/
def Yields (P : α → Prop) (p : Reader ε α) : Prop :=
  ∀ ⦃b rest : Bytes⦄ ⦃x : α⦄, p b = .ok (x, rest) → P x

theorem Yields.bind {P : β → Prop} {p : Reader ε α} {f : α → Reader ε β}
    (h : ∀ x, Yields P (f x)) : Yields P (p >>= f) := by
  intro b rest y hy
  obtain ⟨x, mid, -, hf⟩ := bind_eq_ok.mp hy
  exact h x hf

theorem Yields.pure {P : α → Prop} {x : α} (h : P x) : Yields P (Pure.pure x : Reader ε α) := by
  intro b rest y hy
  cases hy
  exact h

theorem Yields.checked {P : β → Prop} {x : β} {c : Except ε α} (h : ∀ a, c = .ok a → P x) :
    Yields P (Reader.lift c >>= fun _ => Pure.pure x) := by
  intro b rest y hy
  obtain ⟨a, mid, hc, hf⟩ := bind_eq_ok.mp hy
  cases hf
  cases c with
  | error e => cases hc
  | ok a' => exact h a' rfl

/-! ## Stability -/

/-- A successful run consumes a prefix, and only that prefix decides its result. -/
def Stable (p : Reader ε α) : Prop :=
  ∀ ⦃b rest : Bytes⦄ ⦃x : α⦄, p b = .ok (x, rest) →
    ∃ front, b = front ++ rest ∧ ∀ rest', p (front ++ rest') = .ok (x, rest')

theorem Stable.pure (x : α) : Stable (Pure.pure x : Reader ε α) := by
  intro b rest y h
  cases h
  exact ⟨[], rfl, fun _ => rfl⟩

theorem Stable.fail (e : ε) : Stable (fail e : Reader ε α) := fun _ _ _ h => nomatch h

theorem Stable.lift (x : Except ε α) : Stable (lift x) := by
  intro b rest y h
  cases x with
  | error e => cases h
  | ok x =>
    cases h
    exact ⟨[], rfl, fun _ => rfl⟩

theorem Stable.bind {p : Reader ε α} {f : α → Reader ε β} (hp : Stable p)
    (hf : ∀ x, Stable (f x)) : Stable (p >>= f) := by
  intro b rest y h
  obtain ⟨x, mid, hpb, hfx⟩ := bind_eq_ok.mp h
  obtain ⟨u, rfl, hu⟩ := hp hpb
  obtain ⟨v, rfl, hv⟩ := hf x hfx
  refine ⟨u ++ v, by simp, fun rest' => bind_eq_ok.mpr ⟨x, v ++ rest', ?_, hv rest'⟩⟩
  rw [List.append_assoc]
  exact hu (v ++ rest')

theorem Stable.ite {c : Prop} [Decidable c] {p q : Reader ε α} (hp : Stable p) (hq : Stable q) :
    Stable (if c then p else q) := by
  split
  · exact hp
  · exact hq

theorem Stable.take (e : ε) (k : Nat) : Stable (take e k) := by
  intro b rest x h
  unfold Reader.take at h
  split at h
  next hk =>
    cases h
    refine ⟨b.take k, (List.take_append_drop k b).symm, fun rest' => ?_⟩
    have hlen : (b.take k).length = k := List.length_take_of_le hk
    simp only [Reader.take, List.length_append, hlen, Nat.le_add_right, if_true,
      List.take_left' hlen, List.drop_left' hlen]
  next => cases h

theorem Stable.length_le {p : Reader ε α} (hp : Stable p) {b rest : Bytes} {x : α}
    (h : p b = .ok (x, rest)) : rest.length ≤ b.length := by
  obtain ⟨front, rfl, -⟩ := hp h
  simp

/-- The bytes a successful stable run consumed give the same value on their own. -/
theorem Stable.consumed {p : Reader ε α} (hp : Stable p) {b rest : Bytes} {x : α}
    (h : p b = .ok (x, rest)) :
    b = b.take (b.length - rest.length) ++ rest ∧
      ∀ rest', p (b.take (b.length - rest.length) ++ rest') = .ok (x, rest') := by
  obtain ⟨u, rfl, hu⟩ := hp h
  have hlen : (u ++ rest).length - rest.length = u.length := by simp
  rw [hlen, List.take_left' rfl]
  exact ⟨rfl, hu⟩

/-! ## Reading what was written -/

/-- The reader takes `b` off any input that starts with it, and returns `x`. -/
def Reads (p : Reader ε α) (b : Bytes) (x : α) : Prop := ∀ rest, p (b ++ rest) = .ok (x, rest)

/-- The reader stops on every input that starts with `b`. -/
def Rejects (p : Reader ε α) (b : Bytes) : Prop := ∀ rest y, p (b ++ rest) ≠ .ok y

/-- The reader takes `b` off the input and returns `x` if a condition holds, and stops if not. -/
structure ReadsIff (c : Prop) (p : Reader ε α) (b : Bytes) (x : α) : Prop where
  reads : c → Reads p b x
  rejects : ¬ c → Rejects p b

namespace ReadsIff

variable {c d : Prop} {p : Reader ε α} {b : Bytes} {x : α}

theorem of_reads (h : Reads p b x) (hc : c) : ReadsIff c p b x :=
  ⟨fun _ => h, fun hn => absurd hc hn⟩

theorem congr (h : ReadsIff c p b x) (hcd : c ↔ d) : ReadsIff d p b x :=
  ⟨fun hd => h.reads (hcd.mpr hd), fun hd => h.rejects fun hc => hd (hcd.mp hc)⟩

theorem pure (x : α) : ReadsIff True (Pure.pure x : Reader ε α) [] x :=
  of_reads (fun _ => rfl) trivial

theorem lift {r : Except ε α} (x : α) (hr : ∀ y, r = .ok y → y = x) :
    ReadsIff (r = .ok x) (Reader.lift r) [] x where
  reads h rest := by
    rw [h]
    rfl
  rejects h rest y hy := by
    cases r with
    | error e => cases hy
    | ok z => exact h (by rw [hr z rfl])

/-- **Sequencing**: both conditions are needed. -/
theorem bind {f : α → Reader ε β} {b' : Bytes} {y : β} (hp : ReadsIff c p b x)
    (hf : ReadsIff d (f x) b' y) : ReadsIff (c ∧ d) (p >>= f) (b ++ b') y where
  reads h rest := by
    rw [List.append_assoc]
    exact bind_eq_ok.mpr ⟨x, b' ++ rest, hp.reads h.1 _, hf.reads h.2 rest⟩
  rejects h rest z hz := by
    obtain ⟨z, left⟩ := z
    rw [List.append_assoc] at hz
    obtain ⟨x', mid, hx, hz⟩ := bind_eq_ok.mp hz
    by_cases hc : c
    · rw [hp.reads hc] at hx
      obtain ⟨rfl, rfl⟩ := Prod.mk.inj (Except.ok.inj hx)
      exact hf.rejects (fun hd => h ⟨hc, hd⟩) rest _ hz
    · exact hp.rejects hc _ _ hx

theorem take (e : ε) (b : Bytes) : ReadsIff True (Reader.take e b.length) b b :=
  of_reads (fun rest => by simp [Reader.take]) trivial

/-- A check after which the value is returned. -/
theorem ite {e : ε} [Decidable c] (x : α) :
    ReadsIff (¬ c) (if c then Reader.fail e else Pure.pure x : Reader ε α) [] x where
  reads h rest := by
    rw [if_neg h]
    rfl
  rejects h rest y hy := by
    rw [if_pos (not_not.mp h)] at hy
    cases hy

/-- The last check of a decoder. -/
theorem checked {r : Except ε Unit} (x : α) :
    ReadsIff (r = .ok ()) (Reader.lift r >>= fun _ => Pure.pure x : Reader ε α) [] x :=
  ((lift () fun _ _ => rfl).bind (pure x)).congr (by simp)

/-- The bytes of a decoder, written in another way. -/
theorem of_eq {b' : Bytes} (h : ReadsIff c p b x) (hb : b = b') : ReadsIff c p b' x := hb ▸ h

end ReadsIff

end Reader

end Bitmarkd.Lib
