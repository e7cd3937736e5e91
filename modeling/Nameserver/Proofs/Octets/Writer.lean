import Nameserver.Octets.Writer
/-!
# What writers put

A writer of a composite value puts the value's wire form in one piece: it does what `put` does with
those octets.  Two puts after each other are one put of both.
-/

namespace Nameserver.Writer

/-- The writer after some octets that fit. -/
def extend (w : Writer) (xs : Octets) : Writer := ⟨w.written ++ xs, w.unwritten.drop xs.length⟩

/-- Octets for which there is room are put behind those that are written. -/
theorem put_of_le {w : Writer} {xs : Octets} (h : xs.length ≤ w.room) :
    w.put xs = .ok (w.extend xs) := by
  rw [put, if_pos (hasRoom_iff.2 h)]
  rfl

/-- Octets for which there is no room are not put, and not in part either. -/
theorem put_of_lt {w : Writer} {xs : Octets} (h : w.room < xs.length) :
    w.put xs = .error .truncated := by
  rw [put, if_neg (by rw [hasRoom_iff]; omega)]

@[simp] theorem room_extend (w : Writer) (xs : Octets) :
    (w.extend xs).room = w.room - xs.length := by
  rw [extend, room, List.length_drop, room]

/-- Octets that are put behind others stand behind them. -/
theorem extend_append (w : Writer) (xs ys : Octets) :
    (w.extend xs).extend ys = w.extend (xs ++ ys) := by
  have hwritten : w.written ++ xs ++ ys = w.written ++ (xs ++ ys) := by
    apply Array.toList_inj.1
    simp
  rw [extend, extend, extend, List.drop_drop, List.length_append, hwritten]

@[simp] theorem put_nil (w : Writer) : w.put [] = .ok w := by
  rw [put_of_le (Nat.zero_le _), extend]
  simp

/-- Two puts after each other are one put of both, also in when they fail. -/
theorem put_bind_put (w : Writer) (xs ys : Octets) :
    (w.put xs >>= fun w => w.put ys) = w.put (xs ++ ys) := by
  -- Both sides fail together: there is room for both puts just if there is room for their sum.
  by_cases hx : xs.length ≤ w.room
  · rw [put_of_le hx]
    show (w.extend xs).put ys = _
    by_cases hy : ys.length ≤ (w.extend xs).room
    · have hxy : (xs ++ ys).length ≤ w.room := by
        rw [room_extend] at hy
        rw [List.length_append]
        omega
      rw [put_of_le hy, put_of_le hxy, extend_append]
    · have hxy : w.room < (xs ++ ys).length := by
        rw [room_extend] at hy
        rw [List.length_append]
        omega
      rw [put_of_lt (Nat.lt_of_not_le hy), put_of_lt hxy]
  · have hxy : w.room < (xs ++ ys).length := by
      rw [List.length_append]
      omega
    rw [put_of_lt (Nat.lt_of_not_le hx), put_of_lt hxy]
    rfl

/-- Entries that are put one after another are put in one piece. -/
theorem foldlM_put {α : Type} {write : α → Writer → Except Truncated Writer} {wire : α → Octets}
    {entries : List α} (h : ∀ entry ∈ entries, ∀ w, write entry w = w.put (wire entry))
    (w : Writer) :
    entries.foldlM (fun w entry => write entry w) w = w.put (entries.flatMap wire) := by
  induction entries generalizing w with
  | nil => rw [List.flatMap_nil, put_nil]; rfl
  | cons entry entries ih =>
    -- The first entry and then the octets of all others are two puts after each other.
    rw [List.foldlM_cons, h entry List.mem_cons_self, List.flatMap_cons, ← put_bind_put]
    exact congrArg _ (funext fun w => ih (fun e he => h e (List.mem_cons_of_mem _ he)) w)

theorem position_extend_ofBuffer (buffer xs : Octets) :
    ((ofBuffer buffer).extend xs).position = xs.length := by
  simp [ofBuffer, extend, position]

/-- A buffer that is written from its front keeps what lies behind the octets put. -/
theorem buffer_extend_ofBuffer (buffer xs : Octets) :
    ((ofBuffer buffer).extend xs).buffer = xs ++ buffer.drop xs.length := by
  simp [ofBuffer, extend, Writer.buffer]

/-- A string after its length is put in one piece, if its length fits one octet. -/
theorem putString8_eq_put {xs : Octets} (h : xs.length ≤ 255) (w : Writer) :
    w.putString8 xs = w.put (UInt8.ofNat xs.length :: xs) := by
  rw [putString8]
  by_cases hroom : w.hasRoom (1 + xs.length) = true
  · rw [if_pos (by simp [h, hroom])]
    exact put_bind_put w [_] xs
  -- The check asks for room for the length and the string, and so does the one put of both.
  · rw [if_neg (by simp [hroom])]
    rw [hasRoom_iff] at hroom
    rw [put_of_lt (by rw [List.length_cons]; omega)]
    rfl

end Nameserver.Writer
