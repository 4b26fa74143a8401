import LiteMultiKV.Protocol.Coherence

/-!
# Namespaces

The stored key of a request is the namespace, a colon and the key, cut to the
buffer; the default namespace stores the key as it is.  Neither part is escaped,
so two namespaces can reach the same stored key.  When they do is decided here in
terms of the names and keys, and connections that do not collide do not see each
other.
-/

namespace LiteMultiKV.Protocol

open Cache CText Dictionary Families Memory Numeric Run

/-! ## Stored keys -/

/-- The longest name `NAMESPACE` keeps. -/
def namespaceLimit : ℕ := 63

/-- The empty name stands for the default namespace. -/
def effective (ns : CStr) : CStr :=
  if strlen ns = 0 then lit "default" else ns

def colon : Byte := 58

/-- The bytes `printf` shows for a key. -/
def keyText (key : Option CStr) : List Byte :=
  (key.getD (lit "(null)")).bytes

/-- The longer name continues the shorter one after a colon, and the key of the
shorter one repeats the rest of it and the other key, as far as the buffer goes. -/
def Nested (ns key other otherKey : List Byte) : Prop :=
  ns ++ [colon] <+: other ∧
    key.take (keyBufferSize - 1 - (ns.length + 1)) =
      (other.drop (ns.length + 1) ++ colon :: otherKey).take
        (keyBufferSize - 1 - (ns.length + 1))

instance (ns key other otherKey : List Byte) : Decidable (Nested ns key other otherKey) := by
  unfold Nested
  infer_instance

/-- The keys of two namespaces are stored as one. -/
def Collides (ns : CStr) (key : Option CStr) (other : CStr) (otherKey : Option CStr) : Prop :=
  if effective ns = lit "default" then
    key.map CStr.bytes =
      some ((other.bytes ++ colon :: keyText otherKey).take (keyBufferSize - 1))
  else if effective other = lit "default" then
    otherKey.map CStr.bytes =
      some ((ns.bytes ++ colon :: keyText key).take (keyBufferSize - 1))
  else
    Nested ns.bytes (keyText key) other.bytes (keyText otherKey) ∨
      Nested other.bytes (keyText otherKey) ns.bytes (keyText key)

instance (ns : CStr) (key : Option CStr) (other : CStr) (otherKey : Option CStr) :
    Decidable (Collides ns key other otherKey) := by
  unfold Collides
  infer_instance

theorem effective_eq_default_iff {ns : CStr} :
    effective ns = lit "default" ↔ strlen ns = 0 ∨ strcmp ns (lit "default") = 0 := by
  rw [strcmp_eq_zero_iff, effective]
  split
  next hempty => simp [hempty]
  next hnamed => simp [hnamed]

theorem makeNamespacedKey_default {ns : CStr} (hdefault : effective ns = lit "default")
    (key : Option CStr) : makeNamespacedKey ns key = key := by
  rw [makeNamespacedKey, if_pos (effective_eq_default_iff.1 hdefault)]

theorem makeNamespacedKey_named {ns : CStr} (hnamed : effective ns ≠ lit "default")
    (key : Option CStr) :
    ∃ stored, makeNamespacedKey ns key = some stored ∧
      stored.bytes = (ns.bytes ++ colon :: keyText key).take (keyBufferSize - 1) := by
  refine ⟨_, if_neg (mt effective_eq_default_iff.2 hnamed), ?_⟩
  have hcolon : (lit ":").bytes = [colon] := by decide
  simp [CStr.take, CStr.append, keyText, hcolon]

theorem effective_eq_self {ns : CStr} (hnamed : effective ns ≠ lit "default") :
    effective ns = ns := by
  unfold effective at hnamed ⊢
  split
  next hempty => simp [hempty] at hnamed
  next => rfl

/-- Cut texts with a shorter and a longer name in front of a separator. -/
theorem take_append_cons_eq_iff {α : Type*} {left right : List α} {separator : α}
    (hlt : left.length < right.length) {count : ℕ} (hcount : left.length < count)
    (key other : List α) :
    (left ++ separator :: key).take count = (right ++ separator :: other).take count ↔
      left ++ [separator] <+: right ∧
        key.take (count - (left.length + 1)) =
          (right.drop (left.length + 1) ++ separator :: other).take
            (count - (left.length + 1)) := by
  obtain ⟨rest, rfl⟩ := Nat.exists_eq_add_of_le (Nat.succ_le_of_lt hcount)
  have hsplit : ∀ text : List α, text.take (left.length + 1 + rest) =
      text.take (left.length + 1) ++ (text.drop (left.length + 1)).take rest :=
    fun text => List.take_add
  rw [Nat.succ_eq_add_one, hsplit, hsplit, Nat.add_sub_cancel_left]
  have hleft : (left ++ separator :: key).take (left.length + 1) = left ++ [separator] := by
    simp [List.take_append]
  have hkey : (left ++ separator :: key).drop (left.length + 1) = key := by
    simp [List.drop_append]
  have hright : (right ++ separator :: other).take (left.length + 1) =
      right.take (left.length + 1) := List.take_append_of_le_length (by omega)
  have hother : (right ++ separator :: other).drop (left.length + 1) =
      right.drop (left.length + 1) ++ separator :: other :=
    List.drop_append_of_le_length (by omega)
  rw [hleft, hkey, hright, hother, List.prefix_iff_eq_take]
  simp only [List.length_append, List.length_singleton]
  constructor
  · intro heq
    exact List.append_inj heq (by simp; omega)
  · rintro ⟨hname, hrest⟩
    rw [← hname, hrest]

/-- Named namespaces collide exactly when one continues the other. -/
theorem named_eq_iff {ns other : List Byte} (hne : ns ≠ other)
    (hns : ns.length ≤ namespaceLimit) (hother : other.length ≤ namespaceLimit)
    (key otherKey : List Byte) :
    (ns ++ colon :: key).take (keyBufferSize - 1) =
        (other ++ colon :: otherKey).take (keyBufferSize - 1) ↔
      Nested ns key other otherKey ∨ Nested other otherKey ns key := by
  have hlength : ∀ {left right text rest : List Byte}, Nested left text right rest →
      left.length < right.length := by
    intro left right text rest hnested
    simpa using hnested.1.length_le
  simp only [namespaceLimit] at hns hother
  rcases lt_trichotomy ns.length other.length with hlt | heq | hgt
  · rw [take_append_cons_eq_iff hlt (by simp [keyBufferSize]; omega)]
    exact ⟨Or.inl, fun hnested => hnested.resolve_right fun hback =>
      absurd (hlength hback) (by omega)⟩
  · constructor
    · intro htake
      have hnames := congrArg (List.take ns.length) htake
      rw [List.take_take, List.take_take, min_eq_left (by simp [keyBufferSize]; omega),
        List.take_left, heq, List.take_left] at hnames
      exact absurd hnames hne
    · rintro (hnested | hnested)
      · exact absurd (hlength hnested) (by omega)
      · exact absurd (hlength hnested) (by omega)
  · rw [eq_comm, take_append_cons_eq_iff hgt (by simp [keyBufferSize]; omega)]
    exact ⟨Or.inr, fun hnested => hnested.resolve_left fun hback =>
      absurd (hlength hback) (by omega)⟩

/-- Two namespaces store two keys as one exactly when they collide. -/
theorem makeNamespacedKey_eq_iff {ns other : CStr} (hne : effective ns ≠ effective other)
    (hns : strlen ns ≤ namespaceLimit) (hother : strlen other ≤ namespaceLimit)
    (key otherKey : Option CStr) :
    makeNamespacedKey ns key = makeNamespacedKey other otherKey ↔
      Collides ns key other otherKey := by
  unfold Collides
  by_cases hdefault : effective ns = lit "default"
  · obtain ⟨stored, hstored, hbytes⟩ :=
      makeNamespacedKey_named (fun heq => hne (hdefault.trans heq.symm)) otherKey
    rw [if_pos hdefault, makeNamespacedKey_default hdefault, hstored, ← hbytes]
    cases key with
    | none => simp
    | some key => simp [CStr.ext_iff]
  · obtain ⟨stored, hstored, hbytes⟩ := makeNamespacedKey_named hdefault key
    rw [if_neg hdefault, hstored]
    by_cases hother' : effective other = lit "default"
    · rw [if_pos hother', makeNamespacedKey_default hother', ← hbytes]
      cases otherKey with
      | none => simp
      | some otherKey => simp [CStr.ext_iff, eq_comm]
    · obtain ⟨twin, htwin, htwinBytes⟩ := makeNamespacedKey_named hother' otherKey
      have hnames : ns.bytes ≠ other.bytes := by
        intro heq
        apply hne
        rw [effective_eq_self hdefault, effective_eq_self hother']
        exact CStr.ext heq
      rw [if_neg hother', htwin, Option.some.injEq, CStr.ext_iff, hbytes, htwinBytes,
        named_eq_iff hnames hns hother]

/-! ## Two connections -/

variable {F : Type} [CFloat F]

/-- The first connection's commands among all, and alone; `foreign` are the stored keys
of the second connection. -/
structure Apart (family : Family) (policy : Policy) (foreign : Set CStr)
    (mixed alone : Server F) : Prop where
  mixed_settled : Settled family policy mixed
  alone_settled : Settled family policy alone
  same : ∀ key, key ∉ foreign →
    textHeld family mixed.engines key = textHeld family alone.engines key
  absent : ∀ key ∈ foreign, textHeld family alone.engines key = none

section Apart

variable {family : Family} {policy : Policy} {foreign : Set CStr} {operation : Operation}
variable {mixed alone server : Server F} {request : Request F}

/-- A served request, seen as its effect on the dictionary. -/
theorem Settled.step_texts (hsettled : Settled family policy server)
    (hregular : request.Regular family operation) (hroom : ¬Full family server.engines) :
    ∃ after, serve true server request =
        some (after, (request.onTexts operation (textHeld family server.engines)).2) ∧
      Settled family policy after ∧
      textHeld family after.engines =
        (request.onTexts operation (textHeld family server.engines)).1 := by
  obtain rfl := hsettled.policy_eq
  obtain ⟨engines, cache, reply, hserve, hreference, hserved⟩ :=
    serve_cached hregular hsettled.sound hsettled.valid fun _ key _ => hsettled.coherent key
  obtain ⟨expected, hexpected, htexts⟩ :=
    Request.reference_onTexts hregular hsettled.sound hroom
  rw [hreference, Option.some.injEq, Prod.mk.injEq] at hexpected
  obtain ⟨rfl, rfl⟩ := hexpected
  exact ⟨_, hserve, ⟨hserved.contained.sound, hserved.kept.valid, hserved.kept.policy_eq,
    hserved.active hsettled.coherent⟩, htexts⟩

omit [CFloat F] in
theorem Request.onTexts_of_ne {key : CStr} (hkey : request.key operation ≠ some key)
    (texts : Texts) : (request.onTexts operation texts).1 key = texts key := by
  unfold Request.onTexts
  split
  next => rfl
  next stored hstored =>
    have hne : key ≠ stored := by
      rintro rfl
      exact hkey hstored
    exact dictionaryStep_of_ne operation hne _ _

omit [CFloat F] in
/-- The reply and the text at the key depend on the text at the key. -/
theorem Request.onTexts_congr (request : Request F) (operation : Operation)
    {texts others : Texts}
    (hsame : ∀ key, request.key operation = some key → texts key = others key) :
    (request.onTexts operation texts).2 = (request.onTexts operation others).2 ∧
      ∀ key, texts key = others key →
        (request.onTexts operation texts).1 key = (request.onTexts operation others).1 key := by
  unfold Request.onTexts
  cases hstored : request.key operation with
  | none => exact ⟨rfl, fun key hkey => hkey⟩
  | some stored =>
      obtain ⟨hreply, htext⟩ := dictionaryStep_congr operation stored
        ((valueToken request.tokens).getD (lit "")) (hsame stored hstored)
      refine ⟨hreply, fun key hkey => ?_⟩
      by_cases heq : key = stored
      · exact heq ▸ htext
      · simp only [dictionaryStep_of_ne operation heq, hkey]

omit [CFloat F] in
/-- The first connection alone stores no more keys. -/
theorem Apart.room (hapart : Apart family policy foreign mixed alone)
    (hroom : ¬Full family mixed.engines) : ¬Full family alone.engines := by
  rintro ⟨hfamily, hfull⟩
  refine hroom ⟨hfamily, hfull.trans ?_⟩
  have hsubset : (entries family alone.engines).keys ⊆ (entries family mixed.engines).keys := by
    intro key hkey
    by_contra hnot
    have hmixed := (textHeld_eq_none_iff hapart.mixed_settled.sound).2 (denote_eq_none_iff.2 hnot)
    have halone : textHeld family alone.engines key = none := by
      by_cases hforeign : key ∈ foreign
      · exact hapart.absent key hforeign
      · rw [← hapart.same key hforeign, hmixed]
    exact denote_eq_none_iff.1 ((textHeld_eq_none_iff hapart.alone_settled.sound).1 halone) hkey
  have hnodup := hapart.alone_settled.sound.nodupKeys family
  simpa [List.keys] using (List.subperm_of_subset hnodup hsubset).length_le

/-- Both runs serve a request of the first connection alike. -/
theorem Apart.serve_own (hapart : Apart family policy foreign mixed alone)
    (hregular : request.Regular family operation) (hroom : ¬Full family mixed.engines)
    (hown : ∀ key, request.key operation = some key → key ∉ foreign) :
    ∃ after twin reply, serve true mixed request = some (after, reply) ∧
      serve true alone request = some (twin, reply) ∧
      Apart family policy foreign after twin := by
  obtain ⟨after, hserve, hsettled, htexts⟩ :=
    hapart.mixed_settled.step_texts hregular hroom
  obtain ⟨twin, htwin, htwinSettled, htwinTexts⟩ :=
    hapart.alone_settled.step_texts hregular (hapart.room hroom)
  obtain ⟨hreply, hcongr⟩ := request.onTexts_congr operation
    (fun key hkey => hapart.same key (hown key hkey))
  refine ⟨after, twin, _, hserve, hreply ▸ htwin, hsettled, htwinSettled, fun key hkey => ?_,
    fun key hkey => ?_⟩
  · rw [htexts, htwinTexts]
    exact hcongr key (hapart.same key hkey)
  · rw [htwinTexts, Request.onTexts_of_ne fun hstored => hown key hstored hkey]
    exact hapart.absent key hkey

/-- A request of the second connection changes foreign keys only. -/
theorem Apart.serve_other (hapart : Apart family policy foreign mixed alone)
    (hregular : request.Regular family operation) (hroom : ¬Full family mixed.engines)
    (hother : ∀ key, request.key operation = some key → key ∈ foreign) :
    ∃ after reply, serve true mixed request = some (after, reply) ∧
      Apart family policy foreign after alone := by
  obtain ⟨after, hserve, hsettled, htexts⟩ :=
    hapart.mixed_settled.step_texts hregular hroom
  refine ⟨after, _, hserve, hsettled, hapart.alone_settled, fun key hkey => ?_, hapart.absent⟩
  rw [htexts, Request.onTexts_of_ne fun hstored => hkey (hother key hstored)]
  exact hapart.same key hkey

/-- Requests whose stored keys lie outside a set are answered as if the requests with keys
in the set were not there. -/
theorem run_apart (maxItems : ℤ) (policy : Policy) (foreign : Set CStr)
    (keep : Request F → Bool) {requests : List (Request F)}
    (hrequests : ∀ request ∈ requests, ∃ operation, request.Regular family operation ∧
      ∀ key, request.key operation = some key → (key ∈ foreign ↔ keep request = false))
    (hroom : Along (serve true) (fun server _ => ¬Full family server.engines)
      (Server.start F maxItems policy) requests) :
    ∃ final replies alone,
      run (serve true) (Server.start F maxItems policy) requests = some (final, replies) ∧
      run (serve true) (Server.start F maxItems policy) (requests.filter keep) =
        some (alone, answersTo keep requests replies) := by
  have hstart : Apart family policy foreign (Server.start F maxItems policy)
      (Server.start F maxItems policy) := by
    have hsettled := settled_start (F := F) family maxItems policy
    refine ⟨hsettled, hsettled, fun _ _ => rfl, fun key _ => ?_⟩
    rw [textHeld_eq_none_iff hsettled.sound]
    exact congrFun (congrArg denote (create_entries family)) key
  refine run_filter ?_ ?_ hstart (hroom.and_forall hrequests)
  · rintro mixed alone request hmixed ⟨hspace, operation, hregular, hkeys⟩ hkeep
    refine hmixed.serve_own hregular hspace fun key hkey hforeign => ?_
    rw [hkeys key hkey, hkeep] at hforeign
    cases hforeign
  · rintro mixed alone request hmixed ⟨hspace, operation, hregular, hkeys⟩ hdrop
    exact hmixed.serve_other hregular hspace fun key hkey => (hkeys key hkey).2 hdrop

/-- The request comes from the connection with the namespace. -/
def Request.fromNamespace (ns : CStr) (request : Request F) : Bool :=
  request.ns = ns

/-- Stored keys of two namespaces are equal exactly when the keys collide, and two
connections of one family without colliding keys do not see each other. -/
theorem namespaces_isolated (maxItems : ℤ) (policy : Policy) (family : Family) (ns other : CStr)
    (hne : effective ns ≠ effective other) (hns : strlen ns ≤ namespaceLimit)
    (hother : strlen other ≤ namespaceLimit) :
    (∀ key otherKey, makeNamespacedKey ns key = makeNamespacedKey other otherKey ↔
      Collides ns key other otherKey) ∧
    ∀ requests : List (Request F),
      (∀ request ∈ requests, (request.ns = ns ∨ request.ns = other) ∧
        ∃ operation, request.Regular family operation) →
      (∀ own ∈ requests, own.ns = ns → ∀ foreign ∈ requests, foreign.ns = other →
        ¬Collides ns own.tokens[1]? other foreign.tokens[1]?) →
      Along (serve true) (fun server _ => ¬Full family server.engines)
        (Server.start F maxItems policy) requests →
      ∃ final replies alone,
        run (serve true) (Server.start F maxItems policy) requests = some (final, replies) ∧
        run (serve true) (Server.start F maxItems policy)
            (requests.filter (Request.fromNamespace ns)) =
          some (alone, answersTo (Request.fromNamespace ns) requests replies) := by
  refine ⟨makeNamespacedKey_eq_iff hne hns hother, fun requests hrequests happart hroom => ?_⟩
  let foreign : Set CStr := fun key => ∃ request ∈ requests, request.ns = other ∧
    makeNamespacedKey other request.tokens[1]? = some key
  refine run_apart maxItems policy foreign _ (fun request hrequest => ?_) hroom
  obtain ⟨hnames, operation, hregular⟩ := hrequests request hrequest
  refine ⟨operation, hregular, fun key hkey => ?_⟩
  have hstored := makeNamespacedKey_of_storedKey hkey
  rcases hnames with hown | hforeign
  · have hnot : key ∉ foreign := by
      rintro ⟨twin, htwin, htwinNs, htwinKey⟩
      apply happart request hrequest hown twin htwin htwinNs
      rw [← makeNamespacedKey_eq_iff hne hns hother, htwinKey, ← hown]
      exact hstored
    simp [hnot, Request.fromNamespace, hown]
  · have hmem : key ∈ foreign := ⟨request, hrequest, hforeign, hforeign ▸ hstored⟩
    have hnames : other ≠ ns := fun heq => hne (congrArg effective heq.symm)
    simp [hmem, Request.fromNamespace, hforeign, hnames]

/-- Two tenants with a key of the same name. -/
def twoTenants : List (Request Float32) :=
  [Request.typed Float32 "a" ["SET", "k", "x"],
    Request.typed Float32 "b" ["SET", "k", "y"],
    Request.typed Float32 "a" ["GET", "k"]]

theorem namespaces_isolated_twoTenants :
    ∃ final replies alone,
      run (serve true) (Server.start Float32 1000 .lru) twoTenants = some (final, replies) ∧
      run (serve true) (Server.start Float32 1000 .lru)
          (twoTenants.filter (Request.fromNamespace (lit "a"))) =
        some (alone, answersTo (Request.fromNamespace (lit "a")) twoTenants replies) := by
  have hisolated := (namespaces_isolated (F := Float32) 1000 .lru .array
    (lit "a") (lit "b") (by decide) (by decide) (by decide)).2 twoTenants
  refine hisolated ?_ (by decide) (by decide +kernel)
  simp only [twoTenants, List.forall_mem_cons]
  exact ⟨⟨.inl rfl, _, typed_regular .array .set (by decide) (by decide)⟩,
    ⟨.inr rfl, _, typed_regular .array .set (by decide) (by decide)⟩,
    ⟨.inl rfl, _, typed_regular .array .get (by decide) (by decide)⟩, by simp⟩

/-- The default namespace reaches into the namespace whose name its key begins with. -/
def borrowedKey : List (Request Float32) :=
  [Request.typed Float32 "a" ["SET", "b", "x"],
    Request.typed Float32 "default" ["GET", "a:b"]]

/-- The default connection reads what the other one has stored. -/
theorem default_namespace_reads_tenant :
    makeNamespacedKey (lit "default") (some (lit "a:b")) =
        makeNamespacedKey (lit "a") (some (lit "b")) ∧
      (run (serve true) (Server.start Float32 1000 .lru) borrowedKey).map Prod.snd =
        some [say "OK\r\n", say "x\r\n"] ∧
      (run (serve true) (Server.start Float32 1000 .lru)
          (borrowedKey.filter (Request.fromNamespace (lit "default")))).map Prod.snd =
        some [say "NO EXIST\r\n"] := by
  decide +kernel

/-! ## Keys of one namespace -/

/-- The number of bytes of a key that fit behind the name. -/
def keyRoom (ns : CStr) : ℕ :=
  keyBufferSize - 1 - (strlen ns + 1)

/-- The buffer of a named namespace cuts both keys to the same text. -/
def CutAlike (ns key other : CStr) : Prop :=
  effective ns ≠ lit "default" ∧ key.bytes.take (keyRoom ns) = other.bytes.take (keyRoom ns)

instance (ns key other : CStr) : Decidable (CutAlike ns key other) := by
  unfold CutAlike
  infer_instance

/-- A namespace stores two keys as one exactly when it cuts them alike. -/
theorem makeNamespacedKey_inj_iff {ns : CStr} (hns : strlen ns ≤ namespaceLimit)
    (key other : CStr) :
    makeNamespacedKey ns (some key) = makeNamespacedKey ns (some other) ↔
      key = other ∨ CutAlike ns key other := by
  unfold CutAlike
  by_cases hdefault : effective ns = lit "default"
  · simp [makeNamespacedKey_default hdefault, hdefault]
  · obtain ⟨stored, hstored, hbytes⟩ := makeNamespacedKey_named hdefault (some key)
    obtain ⟨twin, htwin, htwinBytes⟩ := makeNamespacedKey_named hdefault (some other)
    have hsplit : ∀ text : List Byte, (ns.bytes ++ colon :: text).take (keyBufferSize - 1) =
        ns.bytes ++ colon :: text.take (keyRoom ns) := by
      intro text
      have hroom : keyBufferSize - 1 - ns.bytes.length = keyRoom ns + 1 := by
        simp only [namespaceLimit, strlen] at hns
        simp only [keyRoom, keyBufferSize, strlen]
        omega
      have hwhole : ns.bytes.take (keyBufferSize - 1) = ns.bytes :=
        List.take_of_length_le (by
          simp only [namespaceLimit, strlen] at hns
          simp only [keyBufferSize]
          omega)
      rw [List.take_append, hwhole, hroom, List.take_succ_cons]
    rw [hstored, htwin, Option.some.injEq, CStr.ext_iff, hbytes, htwinBytes, hsplit, hsplit,
      List.append_cancel_left_eq, List.cons.injEq]
    simp only [keyText, Option.getD_some, true_and, ne_eq, hdefault, not_false_eq_true]
    refine ⟨Or.inr, ?_⟩
    rintro (rfl | heq)
    · rfl
    · exact heq

/-- The request works on the key. -/
def Request.onKey (key : CStr) (request : Request F) : Bool :=
  request.tokens[1]? = some key

/-- Different keys of a namespace are stored as different keys exactly when they are not
cut alike, and then the commands on one of them do not see those on the others. -/
theorem keys_distinct_iff (maxItems : ℤ) (policy : Policy) (family : Family) (ns : CStr)
    (hns : strlen ns ≤ namespaceLimit) :
    (∀ key other : CStr, key ≠ other →
      (makeNamespacedKey ns (some key) ≠ makeNamespacedKey ns (some other) ↔
        ¬CutAlike ns key other)) ∧
    ∀ (key : CStr) (requests : List (Request F)),
      (∀ request ∈ requests, request.ns = ns ∧
        (∃ operation, request.Regular family operation) ∧
        ∃ token, request.tokens[1]? = some token ∧ (token ≠ key → ¬CutAlike ns key token)) →
      Along (serve true) (fun server _ => ¬Full family server.engines)
        (Server.start F maxItems policy) requests →
      ∃ final replies alone,
        run (serve true) (Server.start F maxItems policy) requests = some (final, replies) ∧
        run (serve true) (Server.start F maxItems policy) (requests.filter (Request.onKey key)) =
          some (alone, answersTo (Request.onKey key) requests replies) := by
  constructor
  · intro key other hne
    rw [Ne, makeNamespacedKey_inj_iff hns]
    simp [hne]
  intro key requests hrequests hroom
  refine run_apart maxItems policy {stored | makeNamespacedKey ns (some key) ≠ some stored} _
    (fun request hrequest => ?_) hroom
  obtain ⟨hown, ⟨operation, hregular⟩, token, htoken, hcut⟩ := hrequests request hrequest
  refine ⟨operation, hregular, fun stored hkey => ?_⟩
  have hstored := makeNamespacedKey_of_storedKey hkey
  rw [hown, htoken] at hstored
  rw [Set.mem_ofPred_eq, ← hstored, Ne, makeNamespacedKey_inj_iff hns]
  by_cases hsame : token = key
  · simp [Request.onKey, htoken, hsame]
  · simp [Request.onKey, htoken, hsame, Ne.symm hsame, hcut hsame]

/-- Two keys in one namespace. -/
def twoKeys : List (Request Float32) :=
  [Request.typed Float32 "a" ["SET", "k", "x"],
    Request.typed Float32 "a" ["SET", "l", "y"],
    Request.typed Float32 "a" ["GET", "k"]]

theorem keys_distinct_iff_twoKeys :
    ∃ final replies alone,
      run (serve true) (Server.start Float32 1000 .lru) twoKeys = some (final, replies) ∧
      run (serve true) (Server.start Float32 1000 .lru)
          (twoKeys.filter (Request.onKey (lit "k"))) =
        some (alone, answersTo (Request.onKey (lit "k")) twoKeys replies) := by
  refine (keys_distinct_iff (F := Float32) 1000 .lru .array (lit "a") (by decide)).2
    (lit "k") twoKeys ?_ (by decide +kernel)
  simp only [twoKeys, List.forall_mem_cons]
  exact ⟨⟨rfl, ⟨_, typed_regular .array .set (by decide) (by decide)⟩, lit "k", rfl, by decide⟩,
    ⟨rfl, ⟨_, typed_regular .array .set (by decide) (by decide)⟩, lit "l", rfl, by decide⟩,
    ⟨rfl, ⟨_, typed_regular .array .get (by decide) (by decide)⟩, lit "k", rfl, by decide⟩,
    by simp⟩

/-- Two keys that agree on the 253 bytes the buffer keeps of them. -/
def longKeys : List (Request Float32) :=
  [{ Request.typed Float32 "a" [] with tokens := [lit "SET", unaryKey 253, lit "x"] },
    { Request.typed Float32 "a" [] with tokens := [lit "GET", unaryKey 254] }]

/-- The value stored under one key is read under the other. -/
theorem long_keys_stored_as_one :
    unaryKey 253 ≠ unaryKey 254 ∧
      makeNamespacedKey (lit "a") (some (unaryKey 253)) =
        makeNamespacedKey (lit "a") (some (unaryKey 254)) ∧
      (run (serve true) (Server.start Float32 1000 .lru) longKeys).map Prod.snd =
        some [say "OK\r\n", say "x\r\n"] ∧
      (run (serve true) (Server.start Float32 1000 .lru)
          (longKeys.filter (Request.onKey (unaryKey 254)))).map Prod.snd =
        some [say "NO EXIST\r\n"] := by
  decide +kernel

end Apart

end LiteMultiKV.Protocol
