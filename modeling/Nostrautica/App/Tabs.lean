/-
The cache of the app in the tabs of one browser profile: each has a mirror of its own, all have
the store on disk.
-/
import Nostrautica.App.Cache

namespace Nostrautica.Cache

open Js

variable {τ δ : Type} [DecidableEq τ]

structure Tabs (τ δ : Type) where
  pages : τ → Page δ := fun _ => {}
  disk : Rows δ := []

namespace Tabs

/-- The cache of a tab with the disk. -/
def view (w : Tabs τ δ) (t : τ) : Cache.World δ := { w.pages t with disk := w.disk }

/-- The tabs after the cache of one has come to this. -/
def store (w : Tabs τ δ) (t : τ) (v : Cache.World δ) : Tabs τ δ :=
  { pages := Function.update w.pages t v.toPage, disk := v.disk }

/-- The tab is loaded again: its mirror and its transactions are gone. -/
def boot (w : Tabs τ δ) (t : τ) : Tabs τ δ := { w with pages := Function.update w.pages t {} }

/-- `cacheGet(key)` in a tab, for its active owner. -/
def get (w : Tabs τ δ) (t : τ) (key : JsString) : Option (Entry δ) := cacheGet (w.pages t).tab key none

/-- `cacheSet(key, data, at)` in a tab, for its active owner. -/
def set (w : Tabs τ δ) (t : τ) (key : JsString) (data : δ) (stamp : Int) : Tabs τ δ :=
  store w t ((Cache.act (view w t) (.set key data stamp none none)).getD (view w t))

/-- A write into the cache. -/
def isSet : Cache.Act δ → Bool
  | .set .. => true
  | _ => false

/-- Something else that the cache of a tab does. -/
def other (w : Tabs τ δ) (t : τ) (x : Cache.Act δ) : Option (Tabs τ δ) :=
  if isSet x then none else (Cache.act (view w t) x).map (store w t)

end Tabs

end Nostrautica.Cache
