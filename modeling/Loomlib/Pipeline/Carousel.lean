import Mathlib.Algebra.GroupWithZero.Nat

/-!
# Pipeline — Carousel

What a pipeline with one worker does, told without threads, heap or queue
operations: tokens go round in one list. The token at the front is dealt
with and may come back at the end. The inlet token waits while two lines
are on the round, otherwise it fetches a product and starts a line; a line
passes one pump each time it is at the front, and behind the last one its
value goes to the outlet. The line that retires with no line left sends the
signal.

`Shape` lists the rounds that occur. Of two lines the older is ahead, by a
pump at least when it comes behind the younger in the list, so values leave
in the order they came, and the inlet token never meets a round that would
retire without it. `weight` falls at every turn.
-/

namespace Loomlib.Pipeline

variable {V : Type}

/-- The value of `v` behind the first `j` pumps. -/
def through (pump : Nat → Option V → Option V) : Nat → V → Option V
  | 0, v => some v
  | j + 1, v => pump j (through pump j v)

/-- What goes round: the inlet token, a line with the pumps it has passed
and its value, a line that has ended and is still counted, the signal. -/
inductive Token (V : Type) where
  | inlet
  | line (stage : Nat) (value : Option V)
  | retire
  | signal
  deriving DecidableEq, Repr

def Token.isLine : Token V → Bool
  | .line _ _ => true
  | _ => false

/-- What a token has before it, where `n` products are still to come. -/
def Token.weight (k n : Nat) : Token V → Nat
  | .inlet => n * (k + 4) + 3
  | .line j _ => k - j + 3
  | .retire => 2
  | .signal => 1

/-- A round, the products the inlet has still to return, the values the
outlet got, and how often the signal was asked for. -/
structure Carousel (V : Type) where
  tokens : List (Token V)
  left : List V
  out : List (Option V)
  calls : Nat
  deriving DecidableEq, Repr

/-- The lines on a round. -/
def lineCount (ts : List (Token V)) : Nat :=
  ts.countP Token.isLine

section LineCount

variable (ts us : List (Token V)) (j : Nat) (p : Option V)

@[simp] theorem lineCount_nil : lineCount ([] : List (Token V)) = 0 := rfl

@[simp] theorem lineCount_inlet : lineCount (.inlet :: ts) = lineCount ts := List.countP_cons

@[simp] theorem lineCount_line : lineCount (.line j p :: ts) = lineCount ts + 1 :=
  List.countP_cons

@[simp] theorem lineCount_append : lineCount (ts ++ us) = lineCount ts + lineCount us :=
  List.countP_append

end LineCount

namespace Carousel

/-- The next turn, with `k` pumps. -/
def turn (k : Nat) (pump : Nat → Option V → Option V) (r : Carousel V) : Option (Carousel V) :=
  match r.tokens with
  | [] => none
  | .inlet :: ts =>
    if 1 < lineCount ts then some { r with tokens := ts ++ [.inlet] }
    else match r.left with
      | v :: left => some { r with tokens := ts ++ [.inlet, .line 0 (some v)], left := left }
      | [] => some { r with tokens := .retire :: ts }
  | .line j p :: ts =>
    if j < k then some { r with tokens := ts ++ [.line (j + 1) (pump j p)] }
    else some { r with tokens := .retire :: ts, out := r.out ++ [p] }
  | .retire :: ts =>
    if lineCount ts = 0 then some { r with tokens := ts ++ [.signal], calls := r.calls + 1 }
    else some { r with tokens := ts }
  | .signal :: ts => some { r with tokens := ts }

section Turn

variable {k : Nat} {pump : Nat → Option V → Option V} {r : Carousel V} {ts : List (Token V)}
  {j : Nat} {p : Option V} {v : V} {left : List V}

theorem turn_wait (h : r.tokens = .inlet :: ts) (hts : 1 < lineCount ts) :
    r.turn k pump = some { r with tokens := ts ++ [.inlet] } := by
  unfold turn
  rw [h]
  exact if_pos hts

theorem turn_fetch (h : r.tokens = .inlet :: ts) (hts : lineCount ts ≤ 1)
    (hleft : r.left = v :: left) : r.turn k pump
      = some { r with tokens := ts ++ [.inlet, .line 0 (some v)], left := left } := by
  unfold turn
  rw [h]
  simp only [if_neg (Nat.not_lt.mpr hts), hleft]

theorem turn_dry (h : r.tokens = .inlet :: ts) (hts : lineCount ts ≤ 1) (hleft : r.left = []) :
    r.turn k pump = some { r with tokens := .retire :: ts } := by
  unfold turn
  rw [h]
  simp only [if_neg (Nat.not_lt.mpr hts), hleft]

theorem turn_pump (h : r.tokens = .line j p :: ts) (hj : j < k) :
    r.turn k pump = some { r with tokens := ts ++ [.line (j + 1) (pump j p)] } := by
  unfold turn
  rw [h]
  exact if_pos hj

theorem turn_outlet (h : r.tokens = .line j p :: ts) (hj : k ≤ j) :
    r.turn k pump = some { r with tokens := .retire :: ts, out := r.out ++ [p] } := by
  unfold turn
  rw [h]
  exact if_neg (Nat.not_lt.mpr hj)

theorem turn_tell (h : r.tokens = .retire :: ts) (hts : lineCount ts = 0) :
    r.turn k pump = some { r with tokens := ts ++ [.signal], calls := r.calls + 1 } := by
  unfold turn
  rw [h]
  exact if_pos hts

theorem turn_retire (h : r.tokens = .retire :: ts) (hts : lineCount ts ≠ 0) :
    r.turn k pump = some { r with tokens := ts } := by
  unfold turn
  rw [h]
  exact if_neg hts

theorem turn_signal (h : r.tokens = .signal :: ts) :
    r.turn k pump = some { r with tokens := ts } := by
  unfold turn
  rw [h]

end Turn

/-! ## The rounds that occur -/

/-- The tokens of a round, with the products of its lines from the oldest,
the products to come and the signals asked for. -/
inductive Shape (k : Nat) (pump : Nat → Option V → Option V) :
    List (Token V) → List V → List V → Nat → Prop where
  | fresh {left} : Shape k pump [.inlet] [] left 0
  | one {j v left} (hj : j ≤ k) :
      Shape k pump [.inlet, .line j (through pump j v)] [v] left 0
  | between {i j v w left} (hj : j ≤ i) (hi : i ≤ k) :
      Shape k pump [.line i (through pump i v), .inlet, .line j (through pump j w)] [v, w] left 0
  | waits {i j v w left} (hj : j < i) (hi : i ≤ k) :
      Shape k pump [.inlet, .line j (through pump j w), .line i (through pump i v)] [v, w] left 0
  | behind {i j v w left} (hj : j < i) (hi : i ≤ k) :
      Shape k pump [.line j (through pump j w), .line i (through pump i v), .inlet] [v, w] left 0
  | ended {j v left} (hj : j ≤ k) :
      Shape k pump [.retire, .inlet, .line j (through pump j v)] [v] left 0
  | dry {j v} (hj : j ≤ k) : Shape k pump [.retire, .line j (through pump j v)] [v] [] 0
  | last {j v} (hj : j ≤ k) : Shape k pump [.line j (through pump j v)] [v] [] 0
  | drained : Shape k pump [.retire] [] [] 0
  | told : Shape k pump [.signal] [] [] 1
  | gone : Shape k pump [] [] [] 1

/-- The products are delivered, on the round or to come, in this order. -/
def Ordered (k : Nat) (pump : Nat → Option V → Option V) (inputs : List V)
    (r : Carousel V) : Prop :=
  ∃ done current, inputs = done ++ current ++ r.left ∧ r.out = done.map (through pump k) ∧
    Shape k pump r.tokens current r.left r.calls

/-- An inlet token that waits gives its place at the front to a line. -/
def weight (k : Nat) (r : Carousel V) : Nat :=
  2 * (r.tokens.map (Token.weight k r.left.length)).sum +
    match r.tokens with
    | .inlet :: _ => 1
    | _ => 0

/-- **One turn** keeps the products in order, and there is less to do. -/
theorem Ordered.turn {k : Nat} {pump : Nat → Option V → Option V} {inputs : List V}
    {r r' : Carousel V} (h : Ordered k pump inputs r) (hs : r.turn k pump = some r') :
    Ordered k pump inputs r' ∧ r'.weight k < r.weight k := by
  obtain ⟨done, current, hin, hout, hshape⟩ := h
  obtain ⟨tokens, left, out, calls⟩ := r
  simp only at hin hout hshape
  subst hin hout
  cases hshape with
  | fresh =>
    cases left with
    | nil =>
      cases hs
      exact ⟨⟨done, [], rfl, rfl, .drained⟩, by simp [weight, Token.weight]⟩
    | cons v left =>
      cases hs
      refine ⟨⟨done, [v], by simp, rfl, .one (Nat.zero_le k)⟩, ?_⟩
      simp [weight, Token.weight, Nat.add_mul]
      omega
  | one hj =>
    cases left with
    | nil =>
      cases hs
      refine ⟨⟨done, _, rfl, rfl, .dry hj⟩, ?_⟩
      show 2 * (2 + (k - _ + 3 + 0)) + 0 < 2 * (0 * (k + 4) + 3 + (k - _ + 3 + 0)) + 1
      omega
    | cons v left =>
      cases hs
      refine ⟨⟨done, _, by simp, rfl, .between (Nat.zero_le _) hj⟩, ?_⟩
      simp [weight, Token.weight, Nat.add_mul]
      omega
  | @between i j v w left hj hi =>
    by_cases hik : i < k
    · rw [turn_pump rfl hik] at hs
      cases hs
      refine ⟨⟨done, _, rfl, rfl, .waits (Nat.lt_succ_of_le hj) hik⟩, ?_⟩
      simp [weight, Token.weight]
      omega
    · -- the older line is through, and the younger one is left
      obtain rfl : i = k := by omega
      rw [turn_outlet rfl (Nat.le_refl _)] at hs
      cases hs
      refine ⟨⟨done ++ [v], _, by simp, by simp, .ended hj⟩, ?_⟩
      simp [weight, Token.weight]
  | waits hj hi =>
    cases hs
    refine ⟨⟨done, _, rfl, rfl, .behind hj hi⟩, ?_⟩
    simp [weight, Token.weight]
    omega
  | @behind i j v w left hj hi =>
    rw [turn_pump rfl (Nat.lt_of_lt_of_le hj hi)] at hs
    cases hs
    refine ⟨⟨done, _, rfl, rfl, .between hj hi⟩, ?_⟩
    simp [weight, Token.weight]
    omega
  | ended hj =>
    cases hs
    refine ⟨⟨done, _, rfl, rfl, .one hj⟩, ?_⟩
    simp [weight, Token.weight]
    omega
  | dry hj =>
    cases hs
    refine ⟨⟨done, _, rfl, rfl, .last hj⟩, ?_⟩
    simp [weight, Token.weight]
  | @last j v hj =>
    by_cases hjk : j < k
    · rw [turn_pump rfl hjk] at hs
      cases hs
      refine ⟨⟨done, _, rfl, rfl, .last hjk⟩, ?_⟩
      simp [weight, Token.weight]
      omega
    · obtain rfl : j = k := by omega
      rw [turn_outlet rfl (Nat.le_refl _)] at hs
      cases hs
      refine ⟨⟨done ++ [v], [], by simp, by simp, .drained⟩, ?_⟩
      simp [weight, Token.weight]
  | drained =>
    cases hs
    exact ⟨⟨done, [], rfl, rfl, .told⟩, by simp [weight, Token.weight]⟩
  | told =>
    cases hs
    exact ⟨⟨done, [], rfl, rfl, .gone⟩, by simp [weight, Token.weight]⟩
  | gone => cases hs

section Shape

variable {k : Nat} {pump : Nat → Option V → Option V} {inputs current left : List V}
  {ts : List (Token V)} {n : Nat} {r : Carousel V}

theorem Shape.calls_le (h : Shape k pump ts current left n) : n ≤ 1 := by
  cases h <;> decide

theorem Shape.calls_of_nil (h : Shape k pump [] current left n) : n = 1 := by
  cases h
  rfl

/-- With the signal asked for, it is all that is left. -/
theorem Shape.of_calls (h : Shape k pump ts current left 1) :
    (ts = [.signal] ∨ ts = []) ∧ current = [] ∧ left = [] := by
  cases h with
  | told => exact ⟨.inl rfl, rfl, rfl⟩
  | gone => exact ⟨.inr rfl, rfl, rfl⟩

/-- Nobody waits when the last line retires. -/
theorem Shape.retire_alone (h : Shape k pump (.retire :: ts) current left n)
    (hts : lineCount ts = 0) : ts = [] := by
  cases h with
  | ended | dry => cases hts
  | drained => rfl

theorem Ordered.calls_le (h : Ordered k pump inputs r) : r.calls ≤ 1 := by
  obtain ⟨_, _, -, -, hshape⟩ := h
  exact hshape.calls_le

theorem Ordered.calls_of_nil (h : Ordered k pump inputs r) (hnone : r.tokens = []) :
    r.calls = 1 := by
  obtain ⟨_, _, -, -, hshape⟩ := h
  rw [hnone] at hshape
  exact hshape.calls_of_nil

theorem Ordered.out_begins (h : Ordered k pump inputs r) :
    r.out <+: inputs.map (through pump k) := by
  obtain ⟨done, current, hin, hout, -⟩ := h
  rw [hin, hout, List.append_assoc, List.map_append]
  exact List.prefix_append _ _

theorem Ordered.out_eq (h : Ordered k pump inputs r) (hcalls : r.calls = 1) :
    r.out = inputs.map (through pump k) := by
  obtain ⟨done, current, hin, hout, hshape⟩ := h
  rw [hcalls] at hshape
  obtain ⟨-, hcurrent, hleft⟩ := hshape.of_calls
  rw [hin, hout, hcurrent, hleft, List.append_nil, List.append_nil]

/-- What a round has before it, by the number of the inputs. -/
theorem Ordered.weight_le (h : Ordered k pump inputs r) :
    r.weight k ≤ 2 * (inputs.length * (k + 4)) + 8 := by
  obtain ⟨done, current, hin, -, hshape⟩ := h
  obtain ⟨tokens, left, out, calls⟩ := r
  simp only at hin hshape
  rw [hin]
  cases hshape <;> simp [weight, Token.weight, Nat.add_mul] <;> omega

end Shape

/-! ## A round without its values -/

end Carousel

@[simp] def Token.plain : Token V → Token Unit
  | .inlet => .inlet
  | .line j _ => .line j (some ())
  | .retire => .retire
  | .signal => .signal

@[simp] theorem lineCount_plain (ts : List (Token V)) :
    lineCount (ts.map Token.plain) = lineCount ts := by
  unfold lineCount
  rw [List.countP_map]
  exact List.countP_congr fun t _ => by cases t <;> rfl

namespace Carousel

/-- The round with all values alike. -/
def plain (r : Carousel V) : Carousel Unit :=
  ⟨r.tokens.map Token.plain, r.left.map fun _ => (), r.out.map fun _ => some (), r.calls⟩

/-- **What the pumps return does not matter** for the way of the tokens. -/
theorem turn_plain {k : Nat} {pump : Nat → Option V → Option V} {r r' : Carousel V}
    (h : r.turn k pump = some r') : r.plain.turn k (fun _ p => p) = some r'.plain := by
  obtain ⟨tokens, left, out, calls⟩ := r
  cases tokens with
  | nil => cases h
  | cons t ts =>
    cases t with
    | inlet =>
      have htokens : (plain ⟨.inlet :: ts, left, out, calls⟩).tokens =
          .inlet :: ts.map Token.plain := rfl
      by_cases hts : 1 < lineCount ts
      · rw [turn_wait rfl hts] at h
        cases h
        rw [turn_wait htokens (by simpa using hts)]
        simp [plain]
      · have hle : lineCount ts ≤ 1 := by omega
        cases left with
        | nil =>
          rw [turn_dry rfl hle rfl] at h
          cases h
          rw [turn_dry htokens (by simpa using hle) rfl]
          simp [plain]
        | cons v left =>
          rw [turn_fetch rfl hle rfl] at h
          cases h
          rw [turn_fetch htokens (by simpa using hle) rfl]
          simp [plain]
    | line j p =>
      have htokens : (plain ⟨.line j p :: ts, left, out, calls⟩).tokens =
          .line j (some ()) :: ts.map Token.plain := rfl
      by_cases hj : j < k
      · rw [turn_pump rfl hj] at h
        cases h
        rw [turn_pump htokens hj]
        simp [plain]
      · rw [turn_outlet rfl (Nat.le_of_not_lt hj)] at h
        cases h
        rw [turn_outlet htokens (Nat.le_of_not_lt hj)]
        simp [plain]
    | retire =>
      have htokens : (plain ⟨.retire :: ts, left, out, calls⟩).tokens =
          .retire :: ts.map Token.plain := rfl
      by_cases hts : lineCount ts = 0
      · rw [turn_tell rfl hts] at h
        cases h
        rw [turn_tell htokens (by simpa using hts)]
        simp [plain]
      · rw [turn_retire rfl hts] at h
        cases h
        rw [turn_retire htokens (by simpa using hts)]
        simp [plain]
    | signal =>
      have htokens : (plain ⟨.signal :: ts, left, out, calls⟩).tokens =
          .signal :: ts.map Token.plain := rfl
      rw [turn_signal rfl] at h
      cases h
      rw [turn_signal htokens]
      simp [plain]

end Carousel

end Loomlib.Pipeline
