import Flood.Bencode.Sound

/-!
# The parser returns

The bounds on the number of steps in the model of the parser are not reached, in any memory: each
loop moves the cursor on, and none goes on behind the buffer.

* `Advances` — what is returned is returned further on; `bParseAny_advances`.
* `bencodeParse_ne_outOfFuel` — the parser returns, or faults.
-/

namespace Flood.Bencode

open Flood.Lib Flood.Hashtable

variable {string : Nat → Option UInt8} {len : Int} {place : Nat → Addr}


/-- The bound on the number of steps is not reached. -/
def Result.Ends {α : Type} (x : Result α) : Prop := ∀ pos, x ≠ .stop .outOfFuel pos

namespace Result.Ends

variable {α β : Type} {x : Result α}

theorem ok (a : α) (pos : Nat) : Ends (.ok a pos) := fun _ h => nomatch h

theorem code (c : Int) (pos : Nat) : Ends (.stop (.code c) pos : Result α) := by
  intro _ h
  simp at h

/-- Both parts of a sequence end. -/
theorem bind {f : α → Nat → Result β} (h : Ends x)
    (hf : ∀ a pos, x = .ok a pos → Ends (f a pos)) : Ends (x.bind f) := by
  cases x with
  | ok a pos => exact hf a pos rfl
  | stop why pos => exact fun p hp => h p (by simpa using hp)

/-- Behind the check the cursor is inside. -/
theorem eofCheck {pos : Nat} (h : (pos : Int) < len → Ends x) : Ends (eofCheck len pos x) := by
  unfold Bencode.eofCheck
  split_ifs with hle
  · exact code _ _
  · exact h (not_le.mp hle)

/-- Both branches. -/
theorem ite {y : Result α} {p : Prop} [Decidable p] (h : Ends x) (h' : Ends y) :
    Ends (if p then x else y) := by
  split_ifs
  · exact h
  · exact h'

theorem readByte (pos : Nat) : Ends (readByte string pos) := by
  unfold Bencode.readByte
  cases string pos with
  | none => exact fun _ h => by simp at h
  | some c => exact ok c pos

end Result.Ends

/-- The digit loop ends: the cursor moves on with each step, up to the end of the buffer. -/
theorem digitLoop_ends {fuel pos : Nat} {n : Int} (hpos : 0 < fuel) (hfuel : len.toNat < fuel + pos) :
    (digitLoop string len fuel n pos).Ends := by
  induction fuel generalizing n pos with
  | zero => exact absurd hpos (lt_irrefl 0)
  | succ fuel ih =>
      rw [digitLoop]
      refine (Result.Ends.readByte pos).bind fun c p hread => ?_
      obtain ⟨_, rfl⟩ := readByte_eq_ok_iff.mp hread
      split_ifs
      · exact .eofCheck fun hlt => ih (by push_cast at hlt; omega) (by omega)
      · exact .ok _ _

theorem copyLoop_ends (block : Bool) (n pos : Nat) : (copyLoop string len block n pos).Ends := by
  induction n generalizing pos with
  | zero => exact .ok _ _
  | succ n ih =>
      rw [copyLoop]
      refine .eofCheck fun _ => (Result.Ends.readByte pos).bind fun c p _ => ?_
      split_ifs
      · exact (ih _).bind fun bytes q _ => .ok _ _
      · exact fun _ h => by simp at h

theorem bParseString_ends (start : Int) (first : UInt8) (pos : Nat) :
    (bParseString string len place start first pos).Ends :=
  (digitLoop_ends (by omega) (by omega)).bind fun _ p _ => (Result.Ends.readByte p).bind fun _ _ _ =>
    .ite (.code _ _) ((copyLoop_ends _ _ _).bind fun _ _ _ => .ok _ _)

theorem bParseInt_ends (start : Int) (pos : Nat) : (bParseInt string len start pos).Ends :=
  .eofCheck fun _ => (Result.Ends.readByte pos).bind fun _ _ _ =>
    (digitLoop_ends (by omega) (by omega)).bind fun _ q _ =>
      (Result.Ends.readByte q).bind fun _ _ _ => .ite (.code _ _) (.ok _ _)

/-- What `any` returns it returns further on. -/
def Advances (any : Nat → Result BencodeValue) : Prop :=
  ∀ pos v pos', any pos = .ok v pos' → pos < pos'

theorem listLoop_advances {any : Nat → Result BencodeValue} (hany : Advances any)
    {fuel pos pos' : Nat} {elems : List BencodeValue}
    (h : listLoop string len any fuel pos = .ok elems pos') : pos ≤ pos' := by
  induction fuel generalizing pos pos' elems with
  | zero => simp [listLoop] at h
  | succ fuel ih =>
      rw [listLoop, Result.bind_eq_ok_iff] at h
      obtain ⟨c, p, hread, h⟩ := h
      obtain ⟨_, rfl⟩ := readByte_eq_ok_iff.mp hread
      split_ifs at h
      · simp only [Result.ok.injEq] at h
        omega
      · rw [Result.bind_eq_ok_iff] at h
        obtain ⟨elem, q, helem, h⟩ := h
        have hq := hany p elem q helem
        rw [eofCheck_eq_ok_iff, Result.bind_eq_ok_iff] at h
        obtain ⟨_, elems', r, hrec, h⟩ := h
        simp only [Result.ok.injEq] at h
        have := ih hrec
        omega

theorem dictLoop_advances {any : Nat → Result BencodeValue} (hany : Advances any)
    {fuel pos pos' : Nat} {dict dict' : BencodeDict}
    (h : dictLoop string len any fuel dict pos = .ok dict' pos') : pos ≤ pos' := by
  induction fuel generalizing pos dict with
  | zero => simp [dictLoop] at h
  | succ fuel ih =>
      rw [dictLoop, Result.bind_eq_ok_iff] at h
      obtain ⟨c, p, hread, h⟩ := h
      obtain ⟨_, rfl⟩ := readByte_eq_ok_iff.mp hread
      rw [ite_eq_iff] at h
      rcases h with ⟨_, h⟩ | ⟨_, h⟩
      · simp only [Result.ok.injEq] at h
        omega
      · rw [Result.bind_eq_ok_iff] at h
        obtain ⟨key, q, hkey, h⟩ := h
        have hq := hany p key q hkey
        rw [eofCheck_eq_ok_iff, Result.bind_eq_ok_iff] at h
        obtain ⟨_, val, r, hval, h⟩ := h
        have hr := hany q val r hval
        rw [eofCheck_eq_ok_iff] at h
        obtain ⟨_, h⟩ := h
        split at h
        · have := ih h
          omega
        · exact absurd h (by simp)
        · exact absurd h (by simp)

/-- The cursor moves on. -/
theorem bParseAny_advances (depth : Nat) : Advances (bParseAny string len place depth) := by
  induction depth with
  | zero =>
      intro pos v pos' h
      simp [bParseAny] at h
  | succ depth ih =>
      intro pos v pos' h
      rw [bParseAny, eofCheck_eq_ok_iff, Result.bind_eq_ok_iff] at h
      obtain ⟨_, c, p, hread, h⟩ := h
      obtain ⟨_, rfl⟩ := readByte_eq_ok_iff.mp hread
      split_ifs at h
      · rw [bParseInt, eofCheck_eq_ok_iff, Result.bind_eq_ok_iff] at h
        obtain ⟨_, sign, q, hread, h⟩ := h
        obtain ⟨_, rfl⟩ := readByte_eq_ok_iff.mp hread
        rw [Result.bind_eq_ok_iff] at h
        obtain ⟨n, r, hloop, h⟩ := h
        obtain ⟨ds, _, _, hr, _, rfl, _, _⟩ := digitLoop_sound hloop
        rw [readByte_of_eq hr.next, Result.bind_ok, ite_eq_iff] at h
        rcases h with ⟨_, h⟩ | ⟨_, h⟩
        · exact absurd h (by simp)
        · simp only [Result.ok.injEq] at h
          split_ifs at h <;> omega
      · rw [bParseList, eofCheck_eq_ok_iff, Result.bind_eq_ok_iff] at h
        obtain ⟨_, elems, q, hloop, h⟩ := h
        have := listLoop_advances ih hloop
        simp only [Result.ok.injEq] at h
        omega
      · rw [bParseDict, eofCheck_eq_ok_iff, Result.bind_eq_ok_iff] at h
        obtain ⟨_, dict, q, hloop, h⟩ := h
        have := dictLoop_advances ih hloop
        simp only [Result.ok.injEq] at h
        omega
      · rw [bParseString, Result.bind_eq_ok_iff] at h
        obtain ⟨n, q, hloop, h⟩ := h
        obtain ⟨ds, _, _, hr, _, rfl, _, _⟩ := digitLoop_sound hloop
        rw [readByte_of_eq hr.next, Result.bind_ok, ite_eq_iff] at h
        rcases h with ⟨_, h⟩ | ⟨_, h⟩
        · exact absurd h (by simp)
        · rw [Result.bind_eq_ok_iff] at h
          obtain ⟨bytes, r, hcopy, h⟩ := h
          obtain ⟨_, _, hr, _⟩ := copyLoop_sound hcopy
          simp only [Result.ok.injEq] at h
          omega

theorem listLoop_ends {any : Nat → Result BencodeValue} (hany : Advances any) {fuel pos : Nat}
    (hends : ∀ p, pos ≤ p → (any p).Ends) (hlt : (pos : Int) < len)
    (hfuel : len.toNat < fuel + pos) : (listLoop string len any fuel pos).Ends := by
  induction fuel generalizing pos with
  | zero => omega
  | succ fuel ih =>
      rw [listLoop]
      refine (Result.Ends.readByte pos).bind fun c p hread => .ite (.ok _ _) ?_
      obtain ⟨_, rfl⟩ := readByte_eq_ok_iff.mp hread
      refine (hends p le_rfl).bind fun elem q helem => .eofCheck fun hlt' => ?_
      have hq := hany p elem q helem
      exact (ih (fun r hr => hends r (by omega)) hlt' (by omega)).bind fun elems r _ => .ok _ _

theorem dictLoop_ends {any : Nat → Result BencodeValue} (hany : Advances any) {fuel pos : Nat}
    {dict : BencodeDict} (hends : ∀ p, pos ≤ p → (any p).Ends) (hlt : (pos : Int) < len)
    (hfuel : len.toNat < fuel + pos) : (dictLoop string len any fuel dict pos).Ends := by
  induction fuel generalizing pos dict with
  | zero => omega
  | succ fuel ih =>
      rw [dictLoop]
      refine (Result.Ends.readByte pos).bind fun c p hread => .ite (.ok _ _) ?_
      obtain ⟨_, rfl⟩ := readByte_eq_ok_iff.mp hread
      refine (hends p le_rfl).bind fun key q hkey => .eofCheck fun _ => ?_
      have hq := hany p key q hkey
      refine (hends q hq.le).bind fun val r hval => .eofCheck fun hlt' => ?_
      have hr := hany q val r hval
      split
      · exact ih (fun r hr => hends r (by omega)) hlt' (by omega)
      · exact fun _ h => by simp at h
      · exact .code _ _

/-- With a level for every byte, the search for a value ends. -/
theorem bParseAny_ends {depth pos : Nat} (hpos : 0 < depth) (hdepth : len.toNat < depth + pos) :
    (bParseAny string len place depth pos).Ends := by
  induction depth generalizing pos with
  | zero => exact absurd hpos (lt_irrefl 0)
  | succ depth ih =>
      have hany := @bParseAny_advances string len place depth
      have hends : (pos + 1 : Nat) < len → ∀ p, pos + 1 ≤ p →
          (bParseAny string len place depth p).Ends := by
        intro hlt p hp
        exact ih (by omega) (by omega)
      rw [bParseAny]
      refine .eofCheck fun _ => (Result.Ends.readByte pos).bind fun c p hread => ?_
      obtain ⟨_, rfl⟩ := readByte_eq_ok_iff.mp hread
      refine .ite (bParseInt_ends _ _) (.ite ?_ (.ite ?_ (.ite (bParseString_ends _ _ _) (.code _ _))))
      · exact .eofCheck fun hlt =>
          (listLoop_ends hany (hends hlt) hlt (by omega)).bind fun _ _ _ => .ok _ _
      · exact .eofCheck fun hlt =>
          (dictLoop_ends hany (hends hlt) hlt (by omega)).bind fun _ _ _ => .ok _ _

/-- **The parser returns**, or faults, in every memory: it does not run forever. -/
theorem bencodeParse_ne_outOfFuel (pos : Nat) :
    bencodeParse string len place ≠ .stop .outOfFuel pos :=
  bParseAny_ends (by omega) (by omega) pos

end Flood.Bencode
