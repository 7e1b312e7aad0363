import Redis.Proof.Dict.Progress
import Redis.Proof.Rax.Refinement
import Redis.Proof.Quicklist.Ends
import Redis.Proof.Skiplist.Refinement
import Redis.Proof.SetType.Refinement
import Redis.Proof.Aof.Rewrite
import Redis.Proof.Sds.Refinement
import Redis.Proof.Watch.Abort
import Redis.Proof.Acl.Describe
import Redis.Proof.Glob
import Redis.Proof.Cluster.Collision
import Redis.Proof.Cluster.Links
import Redis.Proof.Cluster.Query
import Redis.Proof.Aof.RewriteFailure
import Redis.Proof.Geohash
import Redis.Construction.Blocking
import Redis.Proof.Blocking
