import NakamotoNode.Client.Signing
import NakamotoNode.Foundations.Splitting

/-! # Wallets

`bin_wallet/src/wallet.rs`: a wallet gives out as its user id the body of its public key, taken out of
the PEM text, and `verify_sig` puts the PEM text together again, in two lines of 64 and 16 characters.
That is the wallet's own PEM text for bodies of 80 characters and for no other (`user_id_iff`). -/

namespace NakamotoNode.Client
open Foundations Foundations.RustStd Chain
set_option autoImplicit false

/-- `Wallet`, less the private key, which only `sign` reads. -/
structure Wallet where
  userName : String
  pubKeyPem : String
  deriving DecidableEq, Repr

/-- `pub_key_lines[1..pub_key_lines.len()-2]` is out of range. -/
inductive WalletPanic where
  | lines
  deriving DecidableEq, Repr

namespace Wallet

def getUserId (wallet : Wallet) : Exec WalletPanic UserId :=
  let pubKeyLines := split '\n' wallet.pubKeyPem
  if 1 ≤ pubKeyLines.length - 2 then
    .ok (String.join ((pubKeyLines.take (pubKeyLines.length - 2)).drop 1))
  else Exec.panic .lines

/-- `verify`; the panics are those of `verify_sig`. -/
def verify (C : Crates) (wallet : Wallet) (message : String) (signature64 : Signature) :
    Exec Panic Bool :=
  Exec.unwrap .publicKey (C.fromPkcs1Pem wallet.pubKeyPem) >>= fun publicKey =>
  Exec.unwrap .sigBase64 (C.base64DecodeVec signature64) >>= fun signature =>
  Exec.unwrap .sigBytes (C.signatureFromBytes signature) >>= fun verifySignature =>
  .ok (C.verify publicKey message verifySignature)

end Wallet

/-- The PEM text that `verify_sig` makes of a user id. -/
def rebuiltPem (sender : UserId) : Exec Panic String :=
  Exec.unwrap .senderSlice (sliceGet sender 0 64) >>= fun firstHalf =>
  Exec.unwrap .senderSlice (sliceGet sender 64 80) >>= fun secondHalf =>
  .ok (senderIdPem firstHalf secondHalf)

/-! ## PEM texts -/

def beginLine : List Char := "-----BEGIN RSA PUBLIC KEY-----".toList

def endLine : List Char := "-----END RSA PUBLIC KEY-----".toList

/-- A key in PEM format with these lines of its body. -/
def rsaPem (lines : List (List Char)) : String :=
  String.ofList (unlines '\n' (beginLine :: (lines ++ [endLine])))

/-- The digits of base64, and its padding. -/
def base64Alphabet : List Char :=
  "ABCDEFGHIJKLMNOPQRSTUVWXYZabcdefghijklmnopqrstuvwxyz0123456789+/=".toList

def Base64 (body : List Char) : Prop := ∀ c ∈ body, c ∈ base64Alphabet

instance (body : List Char) : Decidable (Base64 body) :=
  decidable_of_iff (body.all (fun c => decide (c ∈ base64Alphabet)) = true) (by simp [Base64])

/-- The PEM text of the wallet has this body, in lines of 64 characters. -/
structure HasBody (wallet : Wallet) (body : List Char) : Prop where
  base64 : Base64 body
  pem : wallet.pubKeyPem = rsaPem (wrap 64 body)

theorem base64Alphabet_spec :
    ∀ c ∈ base64Alphabet, c.val ≤ 127 ∧ c ≠ '\n' ∧ ¬ MustEscape c := by
  have hall : base64Alphabet.all
      (fun c => decide (c.val ≤ 127 ∧ c ≠ '\n' ∧ ¬ MustEscape c)) = true := by decide +kernel
  exact fun c hc => of_decide_eq_true (List.all_eq_true.mp hall c hc)

theorem join_ofList (pieces : List (List Char)) :
    String.join (pieces.map String.ofList) = String.ofList pieces.flatten := by
  apply String.toList_inj.mp
  simp [List.flatMap_map, List.flatMap_id']

variable {wallet : Wallet} {body : List Char}

theorem newline_notMem_pem {lines : List (List Char)} (h : ∀ line ∈ lines, '\n' ∉ line) :
    ∀ line ∈ beginLine :: (lines ++ [endLine]), '\n' ∉ line := by
  intro line hline
  rcases List.mem_cons.mp hline with rfl | hline
  · decide
  · rcases List.mem_append.mp hline with hline | hline
    · exact h line hline
    · rw [List.mem_singleton.mp hline]
      decide

theorem rsaPem_inj {lines lines' : List (List Char)} (h : ∀ line ∈ lines, '\n' ∉ line)
    (h' : ∀ line ∈ lines', '\n' ∉ line) : rsaPem lines = rsaPem lines' ↔ lines = lines' := by
  unfold rsaPem
  rw [← String.toList_inj, String.toList_ofList, String.toList_ofList,
    unlines_inj (newline_notMem_pem h) (newline_notMem_pem h'), List.cons_inj_right,
    List.append_left_inj]

theorem senderIdPem_eq (firstHalf secondHalf : List Char) :
    senderIdPem (String.ofList firstHalf) (String.ofList secondHalf) =
      rsaPem [firstHalf, secondHalf] := by
  have hbegin : "-----BEGIN RSA PUBLIC KEY-----\n".toList = beginLine ++ ['\n'] := by decide
  have hend : "\n-----END RSA PUBLIC KEY-----\n".toList = '\n' :: (endLine ++ ['\n']) := by decide
  apply String.toList_inj.mp
  unfold senderIdPem rsaPem
  simp only [String.toList_append, String.toList_ofList, hbegin, hend]
  simp [unlines]

namespace HasBody

theorem newline_notMem (h : HasBody wallet body) : '\n' ∉ body :=
  fun hmem => (base64Alphabet_spec _ (h.base64 _ hmem)).2.1 rfl

theorem lines (h : HasBody wallet body) : ∀ line ∈ wrap 64 body, '\n' ∉ line :=
  fun _ hline hmem => h.newline_notMem (mem_of_mem_wrap (by decide) hline hmem)

theorem getUserId (h : HasBody wallet body) : wallet.getUserId = .ok (String.ofList body) := by
  have hlines : split '\n' wallet.pubKeyPem =
      (beginLine :: (wrap 64 body ++ [endLine, []])).map String.ofList := by
    rw [h.pem, split, rsaPem, String.toList_ofList, splitOn_unlines (newline_notMem_pem h.lines)]
    simp
  unfold Wallet.getUserId
  rw [hlines]
  simp only [List.length_map, List.length_cons, List.length_append, List.length_nil]
  rw [if_pos (by omega), ← List.map_take, ← List.map_drop, join_ofList]
  have hmiddle : ((beginLine :: (wrap 64 body ++ [endLine, []])).take
      ((wrap 64 body).length + (0 + 1 + 1) + 1 - 2)).drop 1 = wrap 64 body := by
    rw [show (wrap 64 body).length + (0 + 1 + 1) + 1 - 2 = (wrap 64 body).length + 1 by omega,
      List.take_succ_cons, List.drop_one, List.tail_cons, List.take_left]
  rw [hmiddle, flatten_wrap (by decide)]

theorem ascii (h : HasBody wallet body) : ∀ c ∈ (String.ofList body).toList, c.val ≤ 127 := by
  rw [String.toList_ofList]
  exact fun c hc => (base64Alphabet_spec c (h.base64 c hc)).1

theorem rebuiltPem_of_le (h : HasBody wallet body) (hlen : 80 ≤ body.length) :
    rebuiltPem (String.ofList body) = .ok (rsaPem [body.take 64, (body.drop 64).take 16]) := by
  have hfirst := sliceGet_of_ascii h.ascii (a := 0) (b := 64) (by omega)
    (by rw [String.toList_ofList]; omega)
  have hsecond := sliceGet_of_ascii h.ascii (a := 64) (b := 80) (by omega)
    (by rw [String.toList_ofList]; omega)
  rw [String.toList_ofList] at hfirst hsecond
  rw [rebuiltPem, hfirst, hsecond, Exec.unwrap_some, Exec.ok_bind, Exec.unwrap_some, Exec.ok_bind,
    senderIdPem_eq]
  rfl

/-- The id is cut to two lines, of 64 and 16 characters. -/
theorem rebuiltPem_iff (h : HasBody wallet body) :
    rebuiltPem (String.ofList body) = .ok wallet.pubKeyPem ↔ body.length = 80 := by
  by_cases hlen : 80 ≤ body.length
  · have hhalves : ∀ line ∈ [body.take 64, (body.drop 64).take 16], '\n' ∉ line := by
      intro line hline hmem
      apply h.newline_notMem
      rcases List.mem_pair.mp hline with rfl | rfl
      · exact List.mem_of_mem_take hmem
      · exact List.mem_of_mem_drop (List.mem_of_mem_take hmem)
    have hiff : rebuiltPem (String.ofList body) = .ok wallet.pubKeyPem ↔
        [body.take 64, (body.drop 64).take 16] = wrap 64 body := by
      rw [h.rebuiltPem_of_le hlen, h.pem, ← rsaPem_inj hhalves h.lines]
      exact ⟨fun heq => Except.ok.inj heq, congrArg _⟩
    rw [hiff]
    constructor
    · intro heq
      have hflat := congrArg (fun lines => lines.flatten.length) heq
      simp only [flatten_wrap (show 0 < 64 by decide), List.flatten_cons, List.flatten_nil,
        List.append_nil, List.length_append, List.length_take, List.length_drop] at hflat
      omega
    · intro hlen
      have htake : (body.drop 64).take 16 = body.drop 64 :=
        List.take_of_length_le (by rw [List.length_drop]; omega)
      rw [wrap_two (by decide) (by omega) (by omega), htake]
  · refine iff_of_false (fun heq => ?_) (by omega)
    obtain ⟨first, -, heq⟩ := Exec.bind_eq_ok.mp heq
    rw [sliceGet_eq_none h.ascii (by omega) (by rw [String.toList_ofList]; omega)] at heq
    exact absurd heq (by simp [Exec.unwrap])

end HasBody

theorem verifyText_eq_verify {C : Crates} {sender : UserId} {sig : Signature} {text : String}
    (h : rebuiltPem sender = .ok wallet.pubKeyPem) :
    verifyText C sender sig text = wallet.verify C text sig := by
  obtain ⟨firstHalf, hfirst, h⟩ := Exec.bind_eq_ok.mp h
  obtain ⟨secondHalf, hsecond, h⟩ := Exec.bind_eq_ok.mp h
  unfold verifyText Wallet.verify
  rw [hfirst, Exec.ok_bind, hsecond, Exec.ok_bind, Except.ok.inj h]

/-- For every wallet with a base64 body of any length in lines of 64 characters: the user id is the
body, and `verify_sig` rebuilds of it the PEM text of the wallet, and so checks the signature of a text
as the wallet does, panics included, exactly when the body has 80 characters. -/
theorem user_id_iff {C : Crates} (h : HasBody wallet body) : ∃ userId,
    wallet.getUserId = .ok userId ∧
    ((rebuiltPem userId = .ok wallet.pubKeyPem ∧ ∀ tx : Transaction, tx.sender = userId →
        tx.verifySig C = wallet.verify C tx.signedText tx.sig) ↔ body.length = 80) := by
  refine ⟨_, h.getUserId, ?_⟩
  rw [← h.rebuiltPem_iff]
  refine and_iff_left_of_imp fun hpem tx htx => ?_
  rw [verifySig_eq, htx]
  exact verifyText_eq_verify hpem

/-- The wallet of Alice, as the docs of `get_user_id` show its key. -/
def aliceWallet : Wallet where
  userName := "Alice"
  pubKeyPem := "-----BEGIN RSA PUBLIC KEY-----\n" ++
    "MDgCMQCqrJ1yIJ7cDQIdTuS+4CkKn/tQPN7bZFbbGCBhvjQxs71f6Vu+sD9eh8JG\n" ++
    "pfiZSckCAwEAAQ==\n" ++ "-----END RSA PUBLIC KEY-----\n"

theorem length_alice : alice.toList.length = 80 := (ascii_of_wallet payable_loan.signed).2

theorem hasBody_aliceWallet : HasBody aliceWallet alice.toList where
  base64 := by decide +kernel
  pem := by
    have hlen := length_alice
    have hwrap := wrap_two (by decide) (show 64 < alice.toList.length by omega)
      (show alice.toList.length ≤ 2 * 64 by omega)
    rw [hwrap]
    decide +kernel

theorem user_id_alice : aliceWallet.getUserId = .ok alice ∧
    rebuiltPem alice = .ok aliceWallet.pubKeyPem := by
  obtain ⟨userId, hid, hiff⟩ := user_id_iff (C := walletCrates) hasBody_aliceWallet
  have halice : aliceWallet.getUserId = .ok alice :=
    hasBody_aliceWallet.getUserId.trans (congrArg Except.ok String.ofList_toList)
  obtain rfl := Except.ok.inj (hid.symm.trans halice)
  exact ⟨halice, (hiff.mpr length_alice).1⟩

/-- A key of 512 bits. -/
def longBody : List Char :=
  ("MEgCQQDpBS0DMlDgPgXs2c5E8I4a8yRO0TpoTenE1UOGs11euHqRR+y0mUfLN7Z0" ++
    "P2pajM9AfidDC/IrPWKOl9/3L/sdAgMBAAE=").toList

theorem length_longBody : longBody.length = 100 := by decide +kernel

def longWallet : Wallet where
  userName := "Dave"
  pubKeyPem := rsaPem (wrap 64 longBody)

theorem hasBody_longWallet : HasBody longWallet longBody where
  base64 := by decide +kernel
  pem := rfl

/-- Of the second line of the key `verify_sig` keeps 16 characters. -/
theorem user_id_cut : HasBody longWallet longBody ∧
    longWallet.getUserId = .ok (String.ofList longBody) ∧
    rebuiltPem (String.ofList longBody) =
      .ok (rsaPem [longBody.take 64, (longBody.drop 64).take 16]) ∧
    rebuiltPem (String.ofList longBody) ≠ .ok longWallet.pubKeyPem := by
  have hcut := hasBody_longWallet.rebuiltPem_of_le (by rw [length_longBody]; decide)
  have hne : rebuiltPem (String.ofList longBody) ≠ .ok longWallet.pubKeyPem := by
    rw [Ne, hasBody_longWallet.rebuiltPem_iff, length_longBody]
    decide
  exact ⟨hasBody_longWallet, hasBody_longWallet.getUserId, hcut, hne⟩

end NakamotoNode.Client
