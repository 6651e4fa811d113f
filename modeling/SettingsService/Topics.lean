import SettingsService.Mqtt
import SettingsService.Notify

/-!
# The topics of notifications

The topic of a change is its tenant and its key between slashes, as they are.  Neither is free of
the characters that mean something in a topic: a key with a wildcard makes a topic nobody may
publish to, and the change is dropped; and a tenant with a slash publishes below the topics of
another.

Main definitions:

* `tenantFilter` — what a subscriber of one tenant asks for;
* `MqttNotifier.notify` — the messages published after a change;
* `OnOwnTopic` — a change is published, and a subscriber of one tenant sees it if it is of the
  tenant.

Main results:

* `onOwnTopic_iff` — **when a change is published, on a topic of its own tenant**.
-/

set_option relaxedAutoImplicit false
set_option autoImplicit false

namespace SettingsService

open Mqtt (levels Publishable ValidPart Matches Covers)

/-! ### Topics and filters -/

/-- What a subscriber of one tenant asks for. -/
def tenantFilter (tenant : String) : String := "settings/" ++ tenant ++ "/#"

/-- A topic the client refuses to publish to holds a wildcard. -/
def refused (topic : String) : Bool := topic.toList.contains '+' || topic.toList.contains '#'

/-- `MqttNotifier::notify`: when the client refuses the topic, the error is logged and the change is
dropped. -/
def MqttNotifier.notify (change : ConfigChange) (published : List Publish) : List Publish :=
  if refused change.topic then published else published ++ [⟨change.topic, change⟩]

/-- The change can be published and is, and a subscriber of `tenant` sees it exactly when it is a
change of `tenant`. -/
structure OnOwnTopic (tenant : String) (change : ConfigChange) : Prop where
  /-- A client may publish to the topic. -/
  publishable : Publishable change.topic.toList
  /-- The change is published. -/
  published : ∀ published, MqttNotifier.notify change published =
    published ++ [⟨change.topic, change⟩]
  /-- A subscriber of one tenant sees the changes of this tenant. -/
  matches_iff : Matches (tenantFilter tenant).toList change.topic.toList ↔ tenant = change.tenant

theorem toList_topic (change : ConfigChange) : change.topic.toList =
    "settings".toList ++ '/' :: (change.tenant.toList ++ '/' :: change.key.toList) := by
  rw [ConfigChange.topic, String.toList_append, String.toList_append, String.toList_append]
  simp only [List.append_assoc]
  rfl

theorem toList_tenantFilter (tenant : String) : (tenantFilter tenant).toList =
    ("settings".toList ++ '/' :: tenant.toList) ++ '/' :: ['#'] := by
  rw [tenantFilter, String.toList_append, String.toList_append]
  simp only [List.append_assoc]
  rfl

theorem levels_topic (change : ConfigChange) : levels change.topic.toList =
    "settings".toList :: (levels change.tenant.toList ++ levels change.key.toList) := by
  rw [toList_topic, Mqtt.levels_append, Mqtt.levels_append, Mqtt.levels_of_not_mem (by decide)]
  rfl

/-- A change can be published exactly when its tenant and its key hold nothing special. -/
theorem publishable_topic_iff (change : ConfigChange) : Publishable change.topic.toList ↔
    Publishable change.tenant.toList ∧ Publishable change.key.toList := by
  have hsettings : Publishable "settings".toList := by decide
  have hslash (s : List Char) : Publishable ('/' :: s) ↔ Publishable s := by
    have hchar : '/' ≠ '+' ∧ '/' ≠ '#' ∧ '/' ≠ '\x00' := by decide
    rw [Publishable, List.forall_mem_cons]
    exact and_iff_right hchar
  rw [toList_topic, Mqtt.publishable_append, hslash, Mqtt.publishable_append, hslash,
    and_iff_right hsettings]

/-- A topic one may publish to is not refused. -/
theorem notify_of_publishable {change : ConfigChange} (h : Publishable change.topic.toList)
    (published : List Publish) :
    MqttNotifier.notify change published = published ++ [⟨change.topic, change⟩] := by
  refine if_neg ?_
  rw [refused, Bool.or_eq_true, List.contains_iff_mem, List.contains_iff_mem]
  exact fun hmem => hmem.elim (fun hc => (h _ hc).1 rfl) fun hc => (h _ hc).2.1 rfl

/-- What a subscriber of one tenant sees. -/
theorem matches_topic_iff (tenant : String) (change : ConfigChange) :
    Matches (tenantFilter tenant).toList change.topic.toList ↔ ValidPart tenant.toList ∧
      Covers (levels tenant.toList) (levels change.tenant.toList ++ levels change.key.toList) := by
  have hsettings : ValidPart "settings".toList := by decide
  have hhead : change.topic.toList.head? ≠ some '$' := by
    rw [toList_topic]
    exact fun h => absurd (Option.some.inj h) (by decide)
  rw [toList_tenantFilter, Mqtt.matches_hash_iff hhead, Mqtt.validPart_append,
    and_iff_right hsettings, levels_topic, Mqtt.levels_append, Mqtt.levels_of_not_mem (by decide)]
  refine and_congr_right fun _ => ?_
  exact and_iff_right (Or.inr rfl)

/-- A publishable tenant matches its own filter, wherever the key leads. -/
theorem matches_own {change : ConfigChange} (h : Publishable change.tenant.toList) :
    Matches (tenantFilter change.tenant).toList change.topic.toList :=
  (matches_topic_iff _ _).2 ⟨h.validPart, Mqtt.covers_append_self _ _⟩

/-! ### When a change is on its own topic -/

/-- **A change is published on a topic of its own tenant** exactly when neither its tenant nor its
key holds a wildcard or U+0000, and a subscriber of another tenant has either no well-formed filter
or one whose levels do not come first in the tenant and the key.  Between tenants without slashes,
wildcards and U+0000 it comes down to the key. -/
theorem onOwnTopic_iff (tenant : String) (change : ConfigChange) :
    (OnOwnTopic tenant change ↔
      Publishable change.tenant.toList ∧ Publishable change.key.toList ∧
        (tenant = change.tenant ∨ ¬ ValidPart tenant.toList ∨
          ¬ Covers (levels tenant.toList)
            (levels change.tenant.toList ++ levels change.key.toList))) ∧
      (Publishable tenant.toList → '/' ∉ tenant.toList → Publishable change.tenant.toList →
        '/' ∉ change.tenant.toList →
        (OnOwnTopic tenant change ↔ Publishable change.key.toList)) := by
  have hiff : OnOwnTopic tenant change ↔
      Publishable change.tenant.toList ∧ Publishable change.key.toList ∧
        (tenant = change.tenant ∨ ¬ ValidPart tenant.toList ∨
          ¬ Covers (levels tenant.toList)
            (levels change.tenant.toList ++ levels change.key.toList)) := by
    constructor
    · intro h
      obtain ⟨htenant, hkey⟩ := (publishable_topic_iff change).1 h.publishable
      refine ⟨htenant, hkey, ?_⟩
      rw [← not_and_or, ← matches_topic_iff, h.matches_iff]
      exact Classical.em _
    · rintro ⟨htenant, hkey, hother⟩
      have htopic := (publishable_topic_iff change).2 ⟨htenant, hkey⟩
      refine ⟨htopic, notify_of_publishable htopic, fun hmatches => ?_, ?_⟩
      · rw [← not_and_or, ← matches_topic_iff] at hother
        exact hother.resolve_right fun h => h hmatches
      · rintro rfl
        exact matches_own htenant
  refine ⟨hiff, fun ht hslash hu hslash' => ?_⟩
  rw [hiff, and_iff_right hu]
  refine and_iff_left ?_
  have hplus : ['+'] ∉ [tenant.toList] := by
    intro h
    have hlist := List.mem_singleton.1 h
    exact (ht '+' (hlist ▸ List.mem_cons_self)).1 rfl
  rw [Mqtt.levels_of_not_mem hslash, Mqtt.levels_of_not_mem hslash',
    Mqtt.covers_iff_isPrefix hplus, List.singleton_append, List.cons_prefix_cons,
    and_iff_left List.nil_prefix, String.toList_inj]
  exact (Classical.em _).imp_right .inr

/-- A change of the tenant `acme` under a key without wildcards. -/
theorem onOwnTopic_plain_key : OnOwnTopic "acme"
    ⟨"settings-service", .delete, "acme", "demo/theme", none, 0⟩ :=
  ((onOwnTopic_iff "acme" ⟨"settings-service", .delete, "acme", "demo/theme", none, 0⟩).2
    (by decide) (by decide) (by decide) (by decide)).2 (by decide)

/-- A key with a wildcard. -/
def plusKey : SettingKey := ⟨"a+b", by decide, by decide, by decide⟩

/-- The key `a+b` is accepted, and its change is dropped; and a subscriber of the tenant `acme` sees
the changes of the tenant `acme/eu`. -/
theorem not_always_onOwnTopic :
    (SettingKey.new "a+b" = .ok plusKey ∧
      let change := NotifyingService.deleteChange "settings-service" plusKey Sample.root
      MqttNotifier.notify change [] = [] ∧ ¬ OnOwnTopic "acme" change) ∧
      let change := NotifyingService.deleteChange "settings-service" Sample.theme
        { Sample.root with tenant := ⟨"acme/eu"⟩ }
      Matches (tenantFilter "acme").toList change.topic.toList ∧ ¬ OnOwnTopic "acme" change := by
  refine ⟨⟨SettingKey.new_asStr plusKey, if_pos (by decide), fun h => ?_⟩, ?_⟩
  · obtain ⟨-, hkey⟩ := (publishable_topic_iff _).1 h.publishable
    exact absurd hkey (by decide)
  · have hseen : Matches (tenantFilter "acme").toList (NotifyingService.deleteChange
        "settings-service" Sample.theme { Sample.root with tenant := ⟨"acme/eu"⟩ }).topic.toList :=
      (matches_topic_iff _ _).2 (by decide)
    exact ⟨hseen, fun h => absurd (h.matches_iff.1 hseen) (by decide)⟩

end SettingsService
