import Mathlib.Data.List.TakeWhile
import CompiScript.Text.Bytes

namespace CompiScript.Text

theorem encode_eq (s : String) : encode s = s.toList.flatMap String.utf8EncodeChar := by
  rw [encode, String.toUTF8_eq_toByteArray, ← String.utf8Encode_toList, List.utf8Encode, List.data_toByteArray,
    List.toList_toArray]

theorem toNat_ofNat_byte {n : Nat} (h : n < 256) : (UInt8.ofNat n).toNat = n := by
  rw [UInt8.toNat_ofNat', Nat.mod_eq_of_lt h]

section Ascii

def isAscii (c : Char) : Bool :=
  c.toNat < 0x80

theorem decodeAsciiFrom_append {cs : List Char} (hcs : ∀ c ∈ cs, isAscii c = true) (place : Nat) (bytes : Bytes) :
    decodeAsciiFrom place (cs.flatMap String.utf8EncodeChar ++ bytes) =
      (decodeAsciiFrom (place + cs.length) bytes).map (cs ++ ·) := by
  induction cs generalizing place with
  | nil =>
    rw [List.flatMap_nil, List.nil_append, List.length_nil, Nat.add_zero]
    cases decodeAsciiFrom place bytes <;> rfl
  | cons c cs ih =>
    have hc : c.toNat < 0x80 := of_decide_eq_true (hcs c List.mem_cons_self)
    have hbyte : String.utf8EncodeChar c = [UInt8.ofNat c.toNat] := by
      rw [String.utf8EncodeChar]
      exact if_pos (by change c.toNat ≤ 127; omega)
    have hlt : UInt8.ofNat c.toNat < 0x80 := by
      rw [UInt8.lt_iff_toNat_lt, toNat_ofNat_byte (by omega)]
      exact hc
    rw [List.flatMap_cons, hbyte, List.append_assoc, List.singleton_append, decodeAsciiFrom, if_pos hlt,
      ih (fun d hd => hcs d (List.mem_cons_of_mem c hd)), toNat_ofNat_byte (by omega), Char.ofNat_toNat,
      List.length_cons, Nat.add_assoc, Nat.add_comm 1]
    cases decodeAsciiFrom (place + (cs.length + 1)) bytes <;> rfl

theorem exists_first_byte {c : Char} (hc : isAscii c = false) :
    ∃ b bs, String.utf8EncodeChar c = b :: bs ∧ ¬b < 0x80 := by
  have hlarge : ¬c.toNat < 0x80 := of_decide_eq_false hc
  have hbyte : ∀ n, 0x80 ≤ n → n < 256 → ¬UInt8.ofNat n < 0x80 := by
    intro n hn hn'
    rw [UInt8.lt_iff_toNat_lt, toNat_ofNat_byte hn']
    change ¬n < 128
    omega
  simp only [String.utf8EncodeChar]
  rw [if_neg (by change ¬c.toNat ≤ 127; omega)]
  split
  · exact ⟨_, _, rfl, hbyte _ (by omega) (by omega)⟩
  · split
    · exact ⟨_, _, rfl, hbyte _ (by omega) (by omega)⟩
    · exact ⟨_, _, rfl, hbyte _ (by omega) (by omega)⟩

theorem decodeAscii_encode {s : String} (h : ∀ c ∈ s.toList, isAscii c = true) : decodeAscii (encode s) = .ok s := by
  have hread := decodeAsciiFrom_append h 0 []
  rw [List.append_nil, ← encode_eq] at hread
  rw [decodeAscii, hread]
  change Except.ok (String.ofList (s.toList ++ [])) = _
  rw [List.append_nil, String.ofList_toList]

theorem decodeAscii_encode_error {s : String} {before after : List Char} {c : Char}
    (hs : s.toList = before ++ c :: after) (hbefore : ∀ d ∈ before, isAscii d = true) {b : UInt8} {bs : Bytes}
    (hbytes : String.utf8EncodeChar c = b :: bs) (hb : ¬b < 0x80) :
    decodeAscii (encode s) = .error ⟨.notAscii, b, before.length, 1⟩ := by
  have hsplit : encode s =
      before.flatMap String.utf8EncodeChar ++ (b :: (bs ++ after.flatMap String.utf8EncodeChar)) := by
    rw [encode_eq, hs, List.flatMap_append, List.flatMap_cons, hbytes, List.cons_append]
  rw [decodeAscii, hsplit, decodeAsciiFrom_append hbefore, Nat.zero_add, decodeAsciiFrom, if_neg hb]
  rfl

end Ascii

section Utf8

theorem announced_eq (b : UInt8) :
    announced b = if b.toNat < 0x80 then some 1 else if b.toNat < 0xc2 then none else
      if b.toNat < 0xe0 then some 2 else if b.toNat < 0xf0 then some 3 else if b.toNat < 0xf5 then some 4
      else none :=
  rfl

theorem leadBits_eq (b : UInt8) :
    leadBits b = if b.toNat < 0x80 then b.toNat else if b.toNat < 0xe0 then b.toNat % 0x20 else
      if b.toNat < 0xf0 then b.toNat % 0x10 else b.toNat % 0x8 :=
  rfl

theorem isContinuation_iff (b : UInt8) : isContinuation b = true ↔ 0x80 ≤ b.toNat ∧ b.toNat < 0xc0 := by
  rw [isContinuation, Bool.and_eq_true, decide_eq_true_eq, decide_eq_true_eq]
  exact Iff.rfl

theorem isSecond_iff (lead b : UInt8) :
    isSecond lead b = true ↔ isContinuation b = true ∧ (lead.toNat = 0xe0 → 0xa0 ≤ b.toNat) ∧
      (lead.toNat = 0xed → b.toNat < 0xa0) ∧ (lead.toNat = 0xf0 → 0x90 ≤ b.toNat) ∧
      (lead.toNat = 0xf4 → b.toNat < 0x90) := by
  have hlead : ∀ n : UInt8, ∀ p : Bool, (lead != n || p) = true ↔ (lead.toNat = n.toNat → p = true) := by
    intro n p
    rw [Bool.or_eq_true, bne_iff_ne, ← UInt8.toNat_inj.ne]
    exact Decidable.imp_iff_not_or.symm
  simp only [isSecond, Bool.and_eq_true, hlead, decide_eq_true_eq, and_assoc]
  exact Iff.rfl

def following (n : Nat) : UInt8 :=
  UInt8.ofNat (n % 64 + 128)

theorem toNat_following (n : Nat) : (following n).toNat = n % 64 + 128 :=
  toNat_ofNat_byte (by omega)

theorem isContinuation_following (n : Nat) : isContinuation (following n) = true := by
  rw [isContinuation_iff, toNat_following]
  omega

theorem isSecond_following_iff (lead : UInt8) (n : Nat) :
    isSecond lead (following n) = true ↔ (lead.toNat = 0xe0 → 0xa0 ≤ n % 64 + 128) ∧
      (lead.toNat = 0xed → n % 64 + 128 < 0xa0) ∧ (lead.toNat = 0xf0 → 0x90 ≤ n % 64 + 128) ∧
      (lead.toNat = 0xf4 → n % 64 + 128 < 0x90) := by
  rw [isSecond_iff, toNat_following]
  exact and_iff_right (isContinuation_following n)

theorem utf8EncodeChar_eq (c : Char) :
    String.utf8EncodeChar c =
      if c.toNat ≤ 0x7f then [UInt8.ofNat c.toNat]
      else if c.toNat ≤ 0x7ff then [UInt8.ofNat (c.toNat / 64 % 32 + 192), following c.toNat]
      else if c.toNat ≤ 0xffff then
        [UInt8.ofNat (c.toNat / 4096 % 16 + 224), following (c.toNat / 64), following c.toNat]
      else
        [UInt8.ofNat (c.toNat / 262144 % 8 + 240), following (c.toNat / 4096), following (c.toNat / 64),
          following c.toNat] :=
  rfl

def Encodes (bytes : Bytes) (c : Char) : Prop :=
  ∀ place rest, decodeUtf8From place (bytes ++ rest) =
    (decodeUtf8From (place + bytes.length) rest).map (c :: ·)

theorem Encodes.single {n : Nat} (h : n < 0x80) : Encodes [UInt8.ofNat n] (Char.ofNat n) := by
  intro place rest
  have hn : (UInt8.ofNat n).toNat = n := toNat_ofNat_byte (by omega)
  have hlead : announced (UInt8.ofNat n) = some 1 := by
    rw [announced_eq, hn, if_pos h]
  have hgood : goodLength (UInt8.ofNat n) 1 rest = 0 := rfl
  have hcode : codePoint (UInt8.ofNat n) [] = Char.ofNat n := by
    rw [codePoint, List.foldl_nil, leadBits_eq, hn, if_pos h]
  rw [List.singleton_append, decodeUtf8From]
  simp only [hlead, hgood, if_true, List.take_zero, List.drop_zero, hcode, List.length_singleton]

theorem Encodes.sequence {lead : UInt8} (second : Nat) (more : List Nat) {c : Char}
    (hlead : announced lead = some (more.length + 2)) (hsecond : isSecond lead (following second) = true)
    (hcode : codePoint lead (following second :: more.map following) = c) :
    Encodes (lead :: following second :: more.map following) c := by
  intro place rest
  have hmore : (more.map following).takeWhile isContinuation = more.map following := by
    rw [List.takeWhile_eq_self_iff]
    intro b hb
    obtain ⟨n, -, rfl⟩ := List.mem_map.mp hb
    exact isContinuation_following n
  have htake : (following second :: (more.map following ++ rest)).take (more.length + 1) =
      following second :: more.map following := by
    rw [List.take_succ_cons, List.take_left' (List.length_map _)]
  have hgood : goodLength lead (more.length + 2) (following second :: (more.map following ++ rest)) =
      more.length + 1 := by
    have hcount : more.length + 2 - 1 = more.length + 1 := rfl
    simp only [goodLength, hcount, htake, hsecond, if_true, hmore, List.length_map]
    exact Nat.add_comm 1 more.length
  rw [List.cons_append, List.cons_append, decodeUtf8From]
  simp only [hlead, hgood, if_true, htake, hcode, List.length_cons, List.length_map]
  rw [List.drop_succ_cons, List.drop_left' (List.length_map _)]

theorem encodes_utf8EncodeChar (c : Char) : Encodes (String.utf8EncodeChar c) c := by
  have hvalid : c.toNat < 0xd800 ∨ 0xdfff < c.toNat ∧ c.toNat < 0x110000 := c.valid
  have hchar : ∀ {n : Nat}, n = c.toNat → Char.ofNat n = c := by
    rintro n rfl
    exact Char.ofNat_toNat c
  have hlead : ∀ {n : Nat}, n < 256 → (UInt8.ofNat n).toNat = n := toNat_ofNat_byte
  rw [utf8EncodeChar_eq]
  split
  · next h =>
    have hsingle := Encodes.single (show c.toNat < 0x80 by omega)
    rwa [Char.ofNat_toNat] at hsingle
  split
  · have hb := hlead (show c.toNat / 64 % 32 + 192 < 256 by omega)
    refine Encodes.sequence _ [] ?_ ?_ (hchar ?_)
    · rw [announced_eq, hb, if_neg (by omega), if_neg (by omega), if_pos (by omega)]
      rfl
    · rw [isSecond_following_iff, hb]
      omega
    · simp only [List.map_nil, List.foldl_cons, List.foldl_nil, leadBits_eq, hb, toNat_following]
      rw [if_neg (by omega), if_pos (by omega)]
      omega
  split
  · have hb := hlead (show c.toNat / 4096 % 16 + 224 < 256 by omega)
    refine Encodes.sequence _ [c.toNat] ?_ ?_ (hchar ?_)
    · rw [announced_eq, hb, if_neg (by omega), if_neg (by omega), if_neg (by omega), if_pos (by omega)]
      rfl
    · rw [isSecond_following_iff, hb]
      omega
    · simp only [List.map_cons, List.map_nil, List.foldl_cons, List.foldl_nil, leadBits_eq, hb, toNat_following]
      rw [if_neg (by omega), if_neg (by omega), if_pos (by omega)]
      omega
  · have hb := hlead (show c.toNat / 262144 % 8 + 240 < 256 by omega)
    refine Encodes.sequence _ [c.toNat / 64, c.toNat] ?_ ?_ (hchar ?_)
    · rw [announced_eq, hb, if_neg (by omega), if_neg (by omega), if_neg (by omega), if_neg (by omega),
        if_pos (by omega)]
      rfl
    · rw [isSecond_following_iff, hb]
      omega
    · simp only [List.map_cons, List.map_nil, List.foldl_cons, List.foldl_nil, leadBits_eq, hb, toNat_following]
      rw [if_neg (by omega), if_neg (by omega), if_neg (by omega)]
      omega

theorem decodeUtf8_encode (s : String) : decodeUtf8 (encode s) = .ok s := by
  have hread : ∀ (cs : List Char) (place : Nat),
      decodeUtf8From place (cs.flatMap String.utf8EncodeChar) = .ok cs := by
    intro cs
    induction cs with
    | nil => intro place; rw [List.flatMap_nil, decodeUtf8From]
    | cons c cs ih =>
      intro place
      rw [List.flatMap_cons, encodes_utf8EncodeChar c, ih]
      rfl
  rw [decodeUtf8, encode_eq, hread]
  change Except.ok (String.ofList s.toList) = _
  rw [String.ofList_toList]

theorem byte_eq {n : Nat} {b : UInt8} (h : n = b.toNat) : UInt8.ofNat n = b := by
  rw [h, UInt8.ofNat_toNat]

theorem following_eq {n : Nat} {b : UInt8} (h : n % 64 + 128 = b.toNat) : following n = b :=
  byte_eq h

theorem toNat_ofNat_char {n : Nat} (h : n < 0xd800 ∨ 0xdfff < n ∧ n < 0x110000) : (Char.ofNat n).toNat = n := by
  have hvalid : n.isValidChar := h
  rw [Char.ofNat, dif_pos hvalid]
  rfl

theorem goodLength_eq {lead : UInt8} {n : Nat} {bs : Bytes} (h : goodLength lead (n + 2) bs = n + 1) :
    ∃ second more, bs.take (n + 1) = second :: more ∧ more.length = n ∧ isSecond lead second = true ∧
      ∀ b ∈ more, isContinuation b = true := by
  rw [goodLength, show n + 2 - 1 = n + 1 from rfl] at h
  split at h
  · omega
  · next second more htake =>
    split at h
    · next hsecond =>
      have hlength : more.length ≤ n := by
        have := congrArg List.length htake
        rw [List.length_take, List.length_cons] at this
        omega
      have hall := List.IsPrefix.eq_of_length_le (List.takeWhile_prefix isContinuation (l := more)) (by omega)
      refine ⟨second, more, htake, ?_, hsecond, List.takeWhile_eq_self_iff.mp hall⟩
      rw [hall] at h
      omega
    · omega

theorem utf8EncodeChar_ofNat {n : Nat} (h : n < 0xd800 ∨ 0xdfff < n ∧ n < 0x110000) :
    String.utf8EncodeChar (Char.ofNat n) =
      if n ≤ 0x7f then [UInt8.ofNat n]
      else if n ≤ 0x7ff then [UInt8.ofNat (n / 64 % 32 + 192), following n]
      else if n ≤ 0xffff then [UInt8.ofNat (n / 4096 % 16 + 224), following (n / 64), following n]
      else [UInt8.ofNat (n / 262144 % 8 + 240), following (n / 4096), following (n / 64), following n] := by
  rw [utf8EncodeChar_eq, toNat_ofNat_char h]

theorem utf8EncodeChar_codePoint {lead : UInt8} {count : Nat} {bs : Bytes} (hlead : announced lead = some count)
    (hgood : goodLength lead count bs + 1 = count) :
    String.utf8EncodeChar (codePoint lead (bs.take (goodLength lead count bs))) =
      lead :: bs.take (goodLength lead count bs) := by
  rw [announced_eq] at hlead
  split at hlead
  · next h =>
    cases hlead
    have hgood : goodLength lead 1 bs = 0 := rfl
    rw [hgood, List.take_zero, codePoint, List.foldl_nil, leadBits_eq, if_pos h, utf8EncodeChar_ofNat (by omega),
      if_pos (by omega), UInt8.ofNat_toNat]
  split at hlead
  · cases hlead
  split at hlead
  · cases hlead
    have hgood : goodLength lead 2 bs = 0 + 1 := by omega
    obtain ⟨second, more, htake, hmore, hsecond, -⟩ := goodLength_eq hgood
    obtain rfl := List.length_eq_zero_iff.mp hmore
    obtain ⟨hsecond, -⟩ := (isSecond_iff ..).mp hsecond
    rw [isContinuation_iff] at hsecond
    rw [hgood, htake]
    simp only [codePoint, List.foldl_cons, List.foldl_nil, leadBits_eq]
    rw [if_neg (by omega), if_pos (by omega), utf8EncodeChar_ofNat (by omega), if_neg (by omega), if_pos (by omega),
      byte_eq (b := lead) (by omega), following_eq (b := second) (by omega)]
  split at hlead
  · cases hlead
    have hgood : goodLength lead 3 bs = 1 + 1 := by omega
    obtain ⟨second, more, htake, hmore, hsecond, hall⟩ := goodLength_eq hgood
    obtain ⟨third, rfl⟩ := List.length_eq_one_iff.mp hmore
    have hthird := (isContinuation_iff _).mp (hall third (.head _))
    obtain ⟨hsecond, he0, hed, -, -⟩ := (isSecond_iff ..).mp hsecond
    rw [isContinuation_iff] at hsecond
    rw [hgood, htake]
    simp only [codePoint, List.foldl_cons, List.foldl_nil, leadBits_eq]
    rw [if_neg (by omega), if_neg (by omega), if_pos (by omega), utf8EncodeChar_ofNat (by omega), if_neg (by omega),
      if_neg (by omega), if_pos (by omega), byte_eq (b := lead) (by omega), following_eq (b := second) (by omega),
      following_eq (b := third) (by omega)]
  split at hlead
  · cases hlead
    have hgood : goodLength lead 4 bs = 2 + 1 := by omega
    obtain ⟨second, more, htake, hmore, hsecond, hall⟩ := goodLength_eq hgood
    obtain ⟨third, more, rfl⟩ := List.exists_cons_of_length_eq_add_one hmore
    obtain ⟨fourth, rfl⟩ := List.length_eq_one_iff.mp (Nat.succ.inj hmore)
    have hthird := (isContinuation_iff _).mp (hall third (.head _))
    have hfourth := (isContinuation_iff _).mp (hall fourth (.tail _ (.head _)))
    obtain ⟨hsecond, -, -, hf0, hf4⟩ := (isSecond_iff ..).mp hsecond
    rw [isContinuation_iff] at hsecond
    rw [hgood, htake]
    simp only [codePoint, List.foldl_cons, List.foldl_nil, leadBits_eq]
    rw [if_neg (by omega), if_neg (by omega), if_neg (by omega), utf8EncodeChar_ofNat (by omega), if_neg (by omega),
      if_neg (by omega), if_neg (by omega), byte_eq (b := lead) (by omega), following_eq (b := second) (by omega),
      following_eq (b := third) (by omega), following_eq (b := fourth) (by omega)]
  · cases hlead

theorem flatMap_of_decodeUtf8From {place : Nat} {bytes : Bytes} {cs : List Char}
    (h : decodeUtf8From place bytes = .ok cs) : cs.flatMap String.utf8EncodeChar = bytes := by
  fun_induction decodeUtf8From place bytes generalizing cs with
  | case1 =>
    cases h
    rfl
  | case2 => cases h
  | case3 place b bs count hlead good hgood =>
    rename_i ih
    cases hrest : decodeUtf8From (place + count) (bs.drop good) with
    | error e =>
      rw [hrest] at h
      cases h
    | ok more =>
      rw [hrest] at h
      cases h
      rw [List.flatMap_cons, utf8EncodeChar_codePoint hlead hgood, ih hrest, List.cons_append, List.take_append_drop]
  | case4 => cases h
  | case5 => cases h

theorem decodeUtf8_eq_ok_iff {bytes : Bytes} {s : String} : decodeUtf8 bytes = .ok s ↔ bytes = encode s := by
  constructor
  · intro h
    rw [decodeUtf8] at h
    cases hread : decodeUtf8From 0 bytes with
    | error e =>
      rw [hread] at h
      cases h
    | ok cs =>
      rw [hread] at h
      cases h
      rw [encode_eq, String.toList_ofList, flatMap_of_decodeUtf8From hread]
  · rintro rfl
    exact decodeUtf8_encode s

end Utf8

end CompiScript.Text
