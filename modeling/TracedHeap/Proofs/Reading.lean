import TracedHeap.Text.Quoted

/-!
# Texts that can be read back

* `Text.readDigits`       the number that digits stand for; `readDigits_toDigits` says that every
                          number is read back from its digits;
* `Text.readInt`          the same with a sign;
* `Text.unescape`         the first character of an escaped text, and what comes after its escape;
* `Text.quote_append_inj` a quoted text ends where it ends, whatever follows, and tells its content.
-/

namespace TracedHeap.Text

/-! ## Digits -/

def digitValue (c : Char) : Nat := if c.isDigit then c.toNat - 48 else c.toNat - 87

def readDigits (b : Nat) (digits : List Char) : Nat :=
  digits.foldl (fun n c => b * n + digitValue c) 0

section
variable {b : Nat}

theorem digitValue_digitChar : ∀ d < 16, digitValue d.digitChar = d := by decide

theorem readDigits_concat (digits : List Char) (c : Char) :
    readDigits b (digits ++ [c]) = b * readDigits b digits + digitValue c := by
  unfold readDigits
  rw [List.foldl_append]
  rfl

theorem readDigits_toDigits (one_lt : 1 < b) (le : b ≤ 16) (n : Nat) :
    readDigits b (Nat.toDigits b n) = n := by
  induction n using Nat.strongRecOn with
  | ind n ih =>
    rw [Nat.toDigits_eq_if one_lt]
    split
    next small =>
      show b * 0 + digitValue n.digitChar = n
      rw [digitValue_digitChar n (by omega)]
      omega
    next large =>
      have fewer : n / b < n := Nat.div_lt_self (by omega) one_lt
      have last : n % b < b := Nat.mod_lt n (by omega)
      rw [readDigits_concat, ih (n / b) fewer, digitValue_digitChar (n % b) (by omega)]
      exact Nat.div_add_mod n b

theorem exists_digitChar_of_mem_toDigits (one_lt : 1 < b) {n : Nat} {c : Char}
    (hc : c ∈ Nat.toDigits b n) : ∃ d, c = Nat.digitChar d := by
  induction n using Nat.strongRecOn with
  | ind n ih =>
    rw [Nat.toDigits_eq_if one_lt] at hc
    split at hc
    next small => exact ⟨n, List.mem_singleton.mp hc⟩
    next large =>
      rcases List.mem_append.mp hc with hc | hc
      · exact ih (n / b) (Nat.div_lt_self (by omega) one_lt) hc
      · exact ⟨n % b, List.mem_singleton.mp hc⟩

def readInt : List Char → Int
  | '-' :: digits => -readDigits 10 digits
  | digits => readDigits 10 digits

theorem readInt_toString (n : Int) : readInt (toString n).toList = n := by
  have digits : ∀ k : Nat, k.repr.toList = Nat.toDigits 10 k := fun k => by
    rw [Nat.repr_eq_ofList_toDigits, String.toList_ofList]
  rw [Int.toString_eq_repr, Int.repr_eq_if]
  split
  next nonneg =>
    rw [digits]
    have unsigned : readInt (Nat.toDigits 10 n.toNat) = readDigits 10 (Nat.toDigits 10 n.toNat) := by
      unfold readInt
      split
      next ds hds =>
        -- a digit is no sign
        have hmem : '-' ∈ Nat.toDigits 10 n.toNat := hds ▸ List.mem_cons_self
        obtain ⟨d, hd⟩ := exists_digitChar_of_mem_toDigits (by decide) hmem
        exact absurd hd.symm (Nat.digitChar_ne '-' rfl)
      next => rfl
    rw [unsigned, readDigits_toDigits (by decide) (by decide)]
    omega
  next negative =>
    rw [String.toList_append, digits]
    show -(readDigits 10 (Nat.toDigits 10 (-n).toNat) : Int) = n
    rw [readDigits_toDigits (by decide) (by decide)]
    omega

theorem mem_toString_int {n : Int} {c : Char} (hc : c ∈ (toString n).toList) :
    c = '-' ∨ c.isDigit = true := by
  have digits : ∀ k : Nat, c ∈ k.repr.toList → c.isDigit = true := fun k hk => by
    rw [Nat.repr_eq_ofList_toDigits, String.toList_ofList] at hk
    exact Nat.isDigit_of_mem_toDigits (by decide) (by decide) hk
  rw [Int.toString_eq_repr, Int.repr_eq_if] at hc
  split at hc
  next => exact .inr (digits _ hc)
  next =>
    rw [String.toList_append] at hc
    rcases List.mem_append.mp hc with hc | hc
    · exact .inl (List.mem_singleton.mp hc)
    · exact .inr (digits _ hc)

theorem toList_toString_int_ne_nil (n : Int) : (toString n).toList ≠ [] := by
  rw [Int.toString_eq_repr, Int.repr_eq_if]
  split
  next =>
    rw [Nat.repr_eq_ofList_toDigits, String.toList_ofList]
    exact Nat.toDigits_ne_nil
  next =>
    rw [String.toList_append]
    exact List.cons_ne_nil _ _

end

/-! ## Escapes -/

def named : Char → Char
  | '0' => '\x00'
  | 't' => '\t'
  | 'r' => '\r'
  | 'n' => '\n'
  | c => c

/-- The character at the start of an escaped text and the rest; a quotation mark ends the text. -/
def unescape : List Char → Option (Char × List Char)
  | [] => none
  | '"' :: _ => none
  | '\\' :: 'u' :: rest =>
    some (Char.ofNat (readDigits 16 ((rest.takeWhile (· != '\x7d')).drop 1)),
      (rest.dropWhile (· != '\x7d')).drop 1)
  | '\\' :: c :: rest => some (named c, rest)
  | c :: rest => some (c, rest)

theorem unescape_escapeCode (c : Char) (rest : List Char) :
    unescape ((escapeCode c).toList ++ rest) = some (c, rest) := by
  have digits : ∀ d ∈ '\x7b' :: Nat.toDigits 16 c.toNat, (d != '\x7d') = true := by
    refine List.forall_mem_cons.mpr ⟨rfl, fun d hd => ?_⟩
    obtain ⟨k, rfl⟩ := exists_digitChar_of_mem_toDigits (by decide) hd
    exact bne_iff_ne.mpr (Nat.digitChar_ne '\x7d' rfl)
  have htext : (escapeCode c).toList ++ rest =
      '\\' :: 'u' :: (('\x7b' :: Nat.toDigits 16 c.toNat) ++ '\x7d' :: rest) := by
    simp [escapeCode]
  rw [htext, unescape, List.takeWhile_append_of_pos digits, List.dropWhile_append_of_pos digits]
  simp [readDigits_toDigits]

theorem unescape_of_ne {c : Char} (hquote : c ≠ '"') (hbackslash : c ≠ '\\') (rest : List Char) :
    unescape (c :: rest) = some (c, rest) := by
  unfold unescape
  split <;> simp_all

theorem unescape_escape (c : Char) (rest : List Char) :
    unescape ((escape c).toList ++ rest) = some (c, rest) := by
  unfold escape
  split
  case h_7 hquote hbackslash =>
    split
    next => exact unescape_escapeCode c rest
    next =>
      rw [Char.toString, String.toList_singleton]
      exact unescape_of_ne hquote hbackslash rest
  all_goals rfl

/-! ## Quoted texts -/

def escapeAll (cs : List Char) : List Char := cs.flatMap fun c => (escape c).toList

theorem toList_quote (s : String) : (quote s).toList = '"' :: (escapeAll s.toList ++ ['"']) := by
  simp [quote, escapeAll, List.flatMap_map]

theorem escapeAll_cons_append (c : Char) (cs rest : List Char) :
    escapeAll (c :: cs) ++ rest = (escape c).toList ++ (escapeAll cs ++ rest) := by
  unfold escapeAll
  rw [List.flatMap_cons, List.append_assoc]

theorem escapeAll_append_inj {cs ds rest rest' : List Char}
    (h : escapeAll cs ++ '"' :: rest = escapeAll ds ++ '"' :: rest') : cs = ds ∧ rest = rest' := by
  -- the first character of both is read; the quotation mark is none
  induction cs generalizing ds with
  | nil =>
    cases ds with
    | nil => exact ⟨rfl, (List.cons.inj h).2⟩
    | cons d ds =>
      have hread := congrArg unescape h
      rw [escapeAll_cons_append, unescape_escape] at hread
      cases hread
  | cons c cs ih =>
    have hread := congrArg unescape h
    rw [escapeAll_cons_append, unescape_escape] at hread
    cases ds with
    | nil => cases hread
    | cons d ds =>
      rw [escapeAll_cons_append, unescape_escape] at hread
      obtain ⟨rfl, htail⟩ := Prod.mk.inj (Option.some.inj hread)
      obtain ⟨rfl, hrest⟩ := ih htail
      exact ⟨rfl, hrest⟩

/-- A quoted text ends where it ends, whatever follows, and tells its content. -/
theorem quote_append_inj {s t : String} {rest rest' : List Char}
    (h : (quote s).toList ++ rest = (quote t).toList ++ rest') : s = t ∧ rest = rest' := by
  rw [toList_quote, toList_quote, List.cons_append, List.cons_append, List.append_assoc,
    List.append_assoc] at h
  obtain ⟨hs, hrest⟩ := escapeAll_append_inj (List.cons.inj h).2
  exact ⟨String.toList_injective hs, hrest⟩

end TracedHeap.Text
