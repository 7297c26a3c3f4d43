import CacheEngine.Layout
import CacheEngine.Bitmap.Codec
import CacheEngine.Bitmap.PartMap
import CacheEngine.Bitmap.Mark
import CacheEngine.Bitmap.Persist
import CacheEngine.Bitmap.RoundTrip
import CacheEngine.Bitmap.Run
import CacheEngine.Table.Sql
import CacheEngine.Table.Store
import CacheEngine.Table.Refinement
import CacheEngine.Table.Lifecycle
